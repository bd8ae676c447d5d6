import Mathlib
import LuaSugar.Project.Site
import LuaSugar.Proofs.Project.Fetched
/-!
# Steps of a build that only files can stop

Some steps of a build come to one value and say one thing, whatever the
site, unless the files refuse something. `Building.Does` says all that such
steps do: there is a `FileTree.Change`, which depends on the files alone;
where it goes through, the steps come to their value, and where it is
refused, they fail with what it was refused with. In both cases the files
are those that the change leaves, and nothing is said or asked for but what
the steps say and ask for (`Building.Does.bind` puts steps together).
-/

namespace LuaSugar

/-! ## Changes of files -/

namespace FileTree

/-- A change of files that may be refused; what was done before that stays. -/
def Change := FileTree → FileTree × Except BuildError Unit

namespace Change

/-- No change. -/
def none : Change := fun t => (t, .ok ())

/-- One change and, unless it is refused, another one. -/
def andThen (first second : Change) : Change := fun t =>
  match first t with
  | (t, .ok ()) => second t
  | (t, .error e) => (t, .error e)

/-- Three changes are taken in turn, however they are put together. -/
theorem andThen_assoc (first second third : Change) :
    (first.andThen second).andThen third = first.andThen (second.andThen third) := by
  funext t
  unfold andThen
  rcases first t with ⟨t, _ | _⟩ <;> rfl

/-- A directory is made, and those above it. -/
def directories (path : Path) : Change := fun t =>
  match t.makeDirectories path with
  | (t, .ok ()) => (t, .ok ())
  | (t, .error fault) => (t, .error (.file path fault))

/-- A change at a path that leaves the files as they are if it is refused. -/
def onPath (path : Path) (change : FileTree → Except FileFault FileTree) : Change := fun t =>
  match change t with
  | .ok t => (t, .ok ())
  | .error fault => (t, .error (.file path fault))

/-- A text is written to a path. -/
def write (path : Path) (text : String) : Change := .onPath path fun t => t.write path text

/-- What stands at a path is removed. -/
def remove (path : Path) : Change := .onPath path fun t => t.remove path

/-- Texts are written one after another, up to the first that is refused. -/
def writes : List (Path × String) → Change
  | [] => none
  | (path, text) :: rest => (write path text).andThen (writes rest)

@[simp] theorem andThen_none (change : Change) : change.andThen none = change := by
  funext t
  unfold andThen
  rcases change t with ⟨t, _ | _⟩ <;> rfl

variable {t t' : FileTree} {path : Path}

/-- Two changes go through if each of them does. -/
theorem andThen_eq_ok {first second : Change} : first.andThen second t = (t', .ok ()) ↔
    ∃ t₁, first t = (t₁, .ok ()) ∧ second t₁ = (t', .ok ()) := by
  unfold andThen
  rcases first t with ⟨t₁, e | _⟩ <;> simp

theorem directories_eq_ok :
    directories path t = (t', .ok ()) ↔ t.makeDirectories path = (t', .ok ()) := by
  unfold directories
  rcases t.makeDirectories path with ⟨t₁, fault | _⟩ <;> simp

theorem onPath_eq_ok {change : FileTree → Except FileFault FileTree} :
    onPath path change t = (t', .ok ()) ↔ change t = .ok t' := by
  unfold onPath
  cases change t <;> simp

end Change

/-- What is seen to be a directory without entries can be removed. -/
theorem exists_remove {t : FileTree} {path : Path} (h : t.isEmptyDirectory path) :
    ∃ left, t.remove path = .ok left := by
  unfold isEmptyDirectory at h
  split at h
  · rename_i location hlocate
    unfold remove
    rw [hlocate]
    exact ⟨_, rfl⟩
  · cases h

end FileTree

/-! ## Steps -/

namespace Building

open FileTree (Change)

variable {α β : Type}

/-- All that steps do, on every site: they change the files in one way, and
come to a value with some notices and requests. If the change is refused the
steps fail for that reason, with no more than some of the notices and
requests, from the front. -/
def Does (m : Building α) (change : Change) (value : α) (notices : List Notice)
    (asked : List Request) : Prop :=
  ∀ site, match change site.files with
    | (files, .ok ()) => m.run.run site =
        (.ok value, ⟨files, site.notices ++ notices, site.asked ++ asked, site.written⟩)
    | (files, .error e) => ∃ said made, said <+: notices ∧ made <+: asked ∧ m.run.run site =
        (.error e, ⟨files, site.notices ++ said, site.asked ++ made, site.written⟩)

variable {m : Building α} {change : Change} {value : α} {notices : List Notice}
variable {asked : List Request}

/-- Where the change goes through, so do the steps. -/
theorem Does.run_ok (h : m.Does change value notices asked) (site : Site) {files : FileTree}
    (hchange : change site.files = (files, .ok ())) :
    m.run.run site =
      (.ok value, ⟨files, site.notices ++ notices, site.asked ++ asked, site.written⟩) := by
  have hsite := h site
  rwa [hchange] at hsite

/-- Where the change is refused, so are the steps. -/
theorem Does.run_error (h : m.Does change value notices asked) (site : Site) {files : FileTree}
    {e : BuildError} (hchange : change site.files = (files, .error e)) :
    ∃ said made, said <+: notices ∧ made <+: asked ∧ m.run.run site =
      (.error e, ⟨files, site.notices ++ said, site.asked ++ made, site.written⟩) := by
  have hsite := h site
  rwa [hchange] at hsite

/-- Steps that came to a value have left what the change leaves. -/
theorem Does.of_run_ok (h : m.Does change value notices asked) {site site' : Site} {found : α}
    (hrun : m.run.run site = (.ok found, site')) : ∃ files,
      change site.files = (files, .ok ()) ∧ found = value ∧
        site' = ⟨files, site.notices ++ notices, site.asked ++ asked, site.written⟩ := by
  rcases hchange : change site.files with ⟨files, e | _⟩
  · obtain ⟨said, made, -, -, hfailed⟩ := h.run_error site hchange
    cases hrun.symm.trans hfailed
  · cases hrun.symm.trans (h.run_ok site hchange)
    exact ⟨files, rfl, rfl, rfl⟩

theorem does_pure (value : α) : (pure value : Building α).Does .none value [] [] := fun site => by
  simp only [Change.none, List.append_nil]
  rfl

theorem does_note (notices : List Notice) : (note notices).Does .none () notices [] := fun site => by
  simp only [Change.none, List.append_nil]
  rfl

theorem does_ask (request : Request) : (ask request).Does .none () [] [request] := fun site => by
  simp only [Change.none, List.append_nil]
  rfl

/-- **Steps behind others.** What the first ones say and ask for is in front
of what the second ones do, which is not reached where the first change is
refused. -/
theorem Does.bind {f : α → Building β} {change' : Change} {result : β} {more : List Notice}
    {further : List Request} (hm : m.Does change value notices asked)
    (hf : (f value).Does change' result more further) :
    (m >>= f).Does (change.andThen change') result (notices ++ more) (asked ++ further) := by
  intro site
  unfold Change.andThen
  rcases hchange : change site.files with ⟨files, e | _⟩
  · obtain ⟨said, made, hsaid, hmade, hrun⟩ := hm.run_error site hchange
    refine ⟨said, made, hsaid.trans (List.prefix_append _ _),
      hmade.trans (List.prefix_append _ _), ?_⟩
    rw [run_bind, hrun]
  · rw [run_bind, hm.run_ok site hchange]
    dsimp only
    rcases hchange' : change' files with ⟨files', e | _⟩
    · obtain ⟨said, made, hsaid, hmade, hrun⟩ := hf.run_error ⟨files, site.notices ++ notices,
        site.asked ++ asked, site.written⟩ hchange'
      refine ⟨notices ++ said, asked ++ made, (List.prefix_append_right_inj _).2 hsaid,
        (List.prefix_append_right_inj _).2 hmade, ?_⟩
      simpa only [List.append_assoc] using hrun
    · have hrun := hf.run_ok ⟨files, site.notices ++ notices, site.asked ++ asked, site.written⟩
        hchange'
      simpa only [List.append_assoc] using hrun

/-- What is made of the value does not matter for the rest. -/
theorem Does.pure {g : α → β} (h : m.Does change value notices asked) :
    (m >>= fun a => Pure.pure (g a)).Does change (g value) notices asked := by
  have hpure := h.bind (f := fun a => Pure.pure (g a)) (does_pure (g value))
  rwa [Change.andThen_none, List.append_nil, List.append_nil] at hpure

/-- Notices in front of steps. -/
theorem Does.noting {f : Unit → Building α} (h : (f ()).Does change value notices asked)
    (said : List Notice) : (note said >>= f).Does change value (said ++ notices) asked :=
  (does_note said).bind h

/-- A request in front of steps. -/
theorem Does.asking {f : Unit → Building α} (h : (f ()).Does change value notices asked)
    (request : Request) : (ask request >>= f).Does change value notices (request :: asked) :=
  (does_ask request).bind h

/-- A change of files in front of steps. -/
theorem Does.changing {m : Building Unit} {f : Unit → Building α} {change' : Change}
    (h : (f ()).Does change' value notices asked) (hm : m.Does change () [] []) :
    (m >>= f).Does (change.andThen change') value notices asked := hm.bind h

/-- A step that looks at the files first. -/
theorem run_get_bind (f : Site → Building β) (site : Site) :
    (get >>= f).run.run site = (f site).run.run site := rfl

theorem does_makeDirectories (path : Path) :
    (makeDirectories path).Does (.directories path) () [] [] := by
  intro site
  have hrun : (makeDirectories path).run.run site = match site.files.makeDirectories path with
      | (files, .ok ()) => (.ok (), { site with files })
      | (files, .error fault) => (.error (.file path fault), { site with files }) := by
    unfold makeDirectories
    rw [run_get_bind]
    rcases site.files.makeDirectories path with ⟨files, _ | _⟩ <;> rfl
  rw [hrun]
  unfold Change.directories
  rcases site.files.makeDirectories path with ⟨files, fault | _⟩
  · exact ⟨[], [], List.nil_prefix, List.nil_prefix, by simp⟩
  · simp

/-- A change of the files at a path. -/
theorem does_onPath (path : Path) (change : FileTree → Except FileFault FileTree) :
    Does (do
      match change (← get).files with
      | .ok files => modify fun s => { s with files }
      | .error fault => refuse path fault) (.onPath path change) () [] [] := by
  intro site
  rw [run_get_bind]
  unfold Change.onPath
  cases change site.files with
  | error fault => exact ⟨[], [], List.nil_prefix, List.nil_prefix, by simp; rfl⟩
  | ok files => simp; rfl

theorem does_write (path : Path) (text : String) :
    (write path text).Does (.write path text) () [] [] := does_onPath path _

theorem does_remove (path : Path) : (remove path).Does (.remove path) () [] [] := does_onPath path _

end Building

end LuaSugar
