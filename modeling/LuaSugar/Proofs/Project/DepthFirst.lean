import Mathlib
import LuaSugar.Project.Modules
import LuaSugar.Proofs.Project.Paths
import LuaSugar.Proofs.Project.Required
/-!
# Depth-first visits

What it means to visit the modules of a project depth first, told as a
recursion: a file that was visited is passed over, another is compiled and
before the files that are still pending come those that it requires, in
the order of their names. `DepthFirst` is that recursion, `Children` says
which files a module requires, and neither has a bound on its depth.

The exploration with a list of pending files and a bound on its rounds is
a run of it, if there are rounds for all files that can be come across
(`explore_depthFirst`).
-/

namespace LuaSugar

/-- The files that the local names of a module lead to, in ascending order
of names. -/
structure Children (p : Project) (view : FileView) (file : Path) (c : Chunk)
    (entries : List (String × Path)) : Prop where
  ordered : entries.Pairwise fun a b => compare a.1 b.1 = .lt
  mem_iff : ∀ name path, (name, path) ∈ entries ↔
    (∃ call ∈ Require.Call.ofChunk c, Reference.ofSpecifier? call.specifier =
      some (.localModule name)) ∧ Require.resolve? view p.root file name = some path

/-- The compiled chunk of a file. -/
def FileView.compile (view : FileView) (p : Project) (path : Path) : Except BuildError Chunk := do
  let source ← (view.read path).mapError (.file path)
  (p.compile source).mapError (.source path)

/-- Whether a file is among those that were visited. Paths are compared by
components. -/
def Visited (seen : List Path) (path : Path) : Prop := ∃ q ∈ seen, q.components = path.components

/-- **Depth-first visits**: the files visited before, those to be visited,
all that are visited afterwards in their order, and the file that fails
with its error, if one does. -/
inductive DepthFirst (p : Project) (view : FileView) :
    List Path → List Path → List Path → Option (Path × BuildError) → Prop
  | done {seen} : DepthFirst p view seen [] seen none
  /-- No file is visited twice. -/
  | again {seen path rest seen' failed} :
      Visited seen path → DepthFirst p view seen rest seen' failed →
      DepthFirst p view seen (path :: rest) seen' failed
  /-- After a failure nothing is visited any more. -/
  | failed {seen path rest error} :
      ¬ Visited seen path → view.compile p path = .error error →
      DepthFirst p view seen (path :: rest) seen (some (path, error))
  /-- What a file requires is visited before the files behind it. -/
  | visited {seen path rest c entries seen₁ seen' failed} :
      ¬ Visited seen path → view.compile p path = .ok c → Children p view path c entries →
      DepthFirst p view (seen ++ [path]) (entries.map (·.2)) seen₁ none →
      DepthFirst p view seen₁ rest seen' failed →
      DepthFirst p view seen (path :: rest) seen' failed
  | stopped {seen path rest c entries seen' failed} :
      ¬ Visited seen path → view.compile p path = .ok c → Children p view path c entries →
      DepthFirst p view (seen ++ [path]) (entries.map (·.2)) seen' (some failed) →
      DepthFirst p view seen (path :: rest) seen' (some failed)

variable {p : Project} {view : FileView}

theorem Visited.mono {seen seen' : List Path} {path : Path} (h : Visited seen path)
    (hsub : ∀ q ∈ seen, q ∈ seen') : Visited seen' path := by
  obtain ⟨q, hq, hsame⟩ := h
  exact ⟨q, hsub q hq, hsame⟩

/-- The order and the names determine the list. -/
theorem Children.unique {file : Path} {c : Chunk} {entries entries' : List (String × Path)}
    (h : Children p view file c entries) (h' : Children p view file c entries') :
    entries = entries' := by
  have hnodup {l : List (String × Path)} (hl : l.Pairwise fun a b => compare a.1 b.1 = .lt) :
      l.Nodup := hl.imp fun {a b} hab heq => by
    subst heq
    have hself : compare a.1 a.1 = .eq := Std.LawfulEqOrd.compare_eq_iff_eq.2 rfl
    rw [hself] at hab
    cases hab
  have hperm : entries.Perm entries' := by
    rw [List.perm_ext_iff_of_nodup (hnodup h.ordered) (hnodup h'.ordered)]
    rintro ⟨name, path⟩
    rw [h.mem_iff, h'.mem_iff]
  refine hperm.eq_of_pairwise (fun a b _ _ hab hba => ?_) h.ordered h'.ordered
  rw [Index.compare_swap, hba] at hab
  cases hab

namespace DepthFirst

variable {seen todo seen' : List Path} {failed : Option (Path × BuildError)}

/-- **There is one way** to visit files depth first. -/
theorem unique (h : DepthFirst p view seen todo seen' failed) {seen₂ : List Path}
    {failed₂ : Option (Path × BuildError)} (h₂ : DepthFirst p view seen todo seen₂ failed₂) :
    seen' = seen₂ ∧ failed = failed₂ := by
  -- the head of the list and whether it compiles decide the rule, so that
  -- unlike rules contradict each other
  induction h generalizing seen₂ failed₂ with
  | done =>
    cases h₂
    exact ⟨rfl, rfl⟩
  | again hseen _ ih =>
    cases h₂ with
    | again _ h₂ => exact ih h₂
    | failed hnot _ | visited hnot _ _ _ _ | stopped hnot _ _ _ => exact absurd hseen hnot
  | failed hnot hcompile =>
    cases h₂ with
    | again hseen _ => exact absurd hseen hnot
    | failed _ hcompile₂ =>
      obtain rfl := Except.error.inj (hcompile.symm.trans hcompile₂)
      exact ⟨rfl, rfl⟩
    | visited _ hcompile₂ _ _ _ | stopped _ hcompile₂ _ _ =>
      cases hcompile.symm.trans hcompile₂
  | visited hnot hcompile hchildren _ _ ihinner ihrest =>
    cases h₂ with
    | again hseen _ => exact absurd hseen hnot
    | failed _ hcompile₂ => cases hcompile.symm.trans hcompile₂
    | visited _ hcompile₂ hchildren₂ hinner₂ hrest₂ =>
      obtain rfl := Except.ok.inj (hcompile.symm.trans hcompile₂)
      obtain rfl := hchildren.unique hchildren₂
      obtain ⟨rfl, -⟩ := ihinner hinner₂
      exact ihrest hrest₂
    | stopped _ hcompile₂ hchildren₂ hinner₂ =>
      obtain rfl := Except.ok.inj (hcompile.symm.trans hcompile₂)
      obtain rfl := hchildren.unique hchildren₂
      cases (ihinner hinner₂).2
  | stopped hnot hcompile hchildren _ ihinner =>
    cases h₂ with
    | again hseen _ => exact absurd hseen hnot
    | failed _ hcompile₂ => cases hcompile.symm.trans hcompile₂
    | visited _ hcompile₂ hchildren₂ hinner₂ _ =>
      obtain rfl := Except.ok.inj (hcompile.symm.trans hcompile₂)
      obtain rfl := hchildren.unique hchildren₂
      cases (ihinner hinner₂).2
    | stopped _ hcompile₂ hchildren₂ hinner₂ =>
      obtain rfl := Except.ok.inj (hcompile.symm.trans hcompile₂)
      obtain rfl := hchildren.unique hchildren₂
      exact ihinner hinner₂

/-- Visited files stay visited. -/
theorem exists_append (h : DepthFirst p view seen todo seen' failed) :
    ∃ new, seen' = seen ++ new := by
  induction h with
  | done => exact ⟨[], by simp⟩
  | again _ _ ih => exact ih
  | failed _ _ => exact ⟨[], by simp⟩
  | visited _ _ _ _ _ ihinner ihrest =>
    obtain ⟨new, rfl⟩ := ihinner
    obtain ⟨new', rfl⟩ := ihrest
    exact ⟨_, by rw [List.append_assoc, List.append_assoc]⟩
  | stopped _ _ _ _ ih =>
    obtain ⟨new, rfl⟩ := ih
    exact ⟨_, by rw [List.append_assoc]⟩

theorem seen_subset (h : DepthFirst p view seen todo seen' failed) : ∀ q ∈ seen, q ∈ seen' := by
  obtain ⟨new, rfl⟩ := h.exists_append
  exact fun q hq => List.mem_append_left _ hq

/-- Visits of two lists in turn, taken apart. -/
theorem split {todo₂ : List Path} (h : DepthFirst p view seen (todo ++ todo₂) seen' failed) :
    (∃ seen₁, DepthFirst p view seen todo seen₁ none ∧
      DepthFirst p view seen₁ todo₂ seen' failed) ∨
    ∃ f, failed = some f ∧ DepthFirst p view seen todo seen' (some f) := by
  induction todo generalizing seen with
  | nil => exact .inl ⟨seen, .done, h⟩
  | cons path todo ih =>
    rw [List.cons_append] at h
    cases h with
    | again hseen h =>
      rcases ih h with ⟨seen₁, hfirst, hrest⟩ | ⟨f, rfl, hfirst⟩
      · exact .inl ⟨seen₁, .again hseen hfirst, hrest⟩
      · exact .inr ⟨f, rfl, .again hseen hfirst⟩
    | failed hnot hcompile => exact .inr ⟨_, rfl, .failed hnot hcompile⟩
    | visited hnot hcompile hchildren hinner h =>
      rcases ih h with ⟨seen₁, hfirst, hrest⟩ | ⟨f, rfl, hfirst⟩
      · exact .inl ⟨seen₁, .visited hnot hcompile hchildren hinner hfirst, hrest⟩
      · exact .inr ⟨f, rfl, .visited hnot hcompile hchildren hinner hfirst⟩
    | stopped hnot hcompile hchildren hinner =>
      exact .inr ⟨_, rfl, .stopped hnot hcompile hchildren hinner⟩

/-- Where every file was visited, nothing happens. -/
theorem of_visited (h : ∀ path ∈ todo, Visited seen path) : DepthFirst p view seen todo seen none := by
  induction todo with
  | nil => exact .done
  | cons path todo ih =>
    rw [List.forall_mem_cons] at h
    exact .again h.1 (ih h.2)

/-- Files that were visited may as well be pending. -/
theorem of_filter {keep : Path → Bool} (h : DepthFirst p view seen (todo.filter keep) seen' failed)
    (hkeep : ∀ path ∈ todo, keep path = false → Visited seen path) :
    DepthFirst p view seen todo seen' failed := by
  induction todo generalizing seen with
  | nil => exact h
  | cons path todo ih =>
    rw [List.forall_mem_cons] at hkeep
    cases hpath : keep path with
    | false =>
      rw [List.filter_cons_of_neg (by simp [hpath])] at h
      exact .again (hkeep.1 hpath) (ih h hkeep.2)
    | true =>
      rw [List.filter_cons_of_pos hpath] at h
      cases h with
      | again hseen h => exact .again hseen (ih h hkeep.2)
      | failed hnot hcompile => exact .failed hnot hcompile
      | visited hnot hcompile hchildren hinner h =>
        refine .visited hnot hcompile hchildren hinner (ih h fun q hq hq' => ?_)
        exact (hkeep.2 q hq hq').mono fun x hx =>
          hinner.seen_subset x (List.mem_append_left _ hx)
      | stopped hnot hcompile hchildren hinner => exact .stopped hnot hcompile hchildren hinner

/-- Visited files in front are passed over. -/
theorem of_dropWhile {skip : Path → Bool}
    (h : DepthFirst p view seen (todo.dropWhile skip) seen' failed)
    (hskip : ∀ path, skip path → Visited seen path) : DepthFirst p view seen todo seen' failed := by
  induction todo with
  | nil => exact h
  | cons path todo ih =>
    cases hpath : skip path with
    | false => rwa [List.dropWhile_cons_of_neg (by simp [hpath])] at h
    | true =>
      rw [List.dropWhile_cons_of_pos hpath] at h
      exact .again (hskip path hpath) (ih h)

end DepthFirst

/-! ## The exploration -/

/-- The files that an entry leads to. -/
inductive Leads (p : Project) (view : FileView) (entry : Path) : Path → Prop
  | entry : Leads p view entry entry
  | step {path c entries name path'} :
      Leads p view entry path → view.compile p path = .ok c → Children p view path c entries →
      (name, path') ∈ entries → Leads p view entry path'

/-- The files that were visited. -/
def Exploration.paths (e : Exploration) : List Path := e.modules.map Module.path

theorem children_ofModule (p : Project) (view : FileView) (file : Path) (c : Chunk) :
    Children p view file c (Requirements.ofModule p view file c).1.modules.entries :=
  have h := Requirements.ofModule_sound p view file c
  ⟨h.ordered, h.modules⟩

namespace Exploration

/-- The module that a compiled file is. -/
def compiled (p : Project) (view : FileView) (path : Path) (c : Chunk) : Module :=
  ⟨path, c, (Requirements.ofModule p view path c).1⟩

theorem visit_eq (p : Project) (view : FileView) (path : Path) : visit p view path =
    (view.compile p path).map fun c =>
      (compiled p view path c, (Requirements.ofModule p view path c).2) := by
  unfold visit FileView.compile
  cases (view.read path).mapError (BuildError.file path) with
  | error e => rfl
  | ok source =>
    show ((p.compile source).mapError (BuildError.source path) >>= _) =
      Except.map _ ((p.compile source).mapError _)
    cases (p.compile source).mapError (BuildError.source path) <;> rfl

@[simp] theorem paths_add (e : Exploration) (m : Module) (notices : List Notice) :
    (e.add m notices).paths = e.paths ++ [m.path] := by
  simp [paths, add]

theorem visited_iff {e : Exploration} {path : Path} : e.visited path ↔ Visited e.paths path := by
  simp [visited, Visited, paths, Path.same_iff]

theorem explore_nil {rounds : ℕ} {pending : List Path} {e : Exploration}
    (h : pending.dropWhile e.visited = []) :
    explore p view (rounds + 1) pending e = (e, none) := by
  rw [explore, h]

/-- A round of the exploration. -/
theorem explore_cons {rounds : ℕ} {pending rest : List Path} {path : Path} {e : Exploration}
    (h : pending.dropWhile e.visited = path :: rest) :
    explore p view (rounds + 1) pending e =
      match view.compile p path with
      | .error error => (e, some error)
      | .ok c =>
        let e' := e.add (compiled p view path c) (Requirements.ofModule p view path c).2
        explore p view rounds ((compiled p view path c).requires.modules.values.filter
          (fun q => !e'.visited q) ++ rest) e' := by
  rw [explore, h]
  dsimp only
  rw [visit_eq]
  cases view.compile p path <;> rfl

/-- The components of files that are still to be come across. -/
def unvisited (S : Finset (List Path.Component)) (e : Exploration) :
    Finset (List Path.Component) :=
  S.filter fun cs => ∀ q ∈ e.paths, q.components ≠ cs

theorem card_unvisited {S : Finset (List Path.Component)} {e : Exploration} {m : Module}
    (notices : List Notice) (hS : m.path.components ∈ S) (hnew : ¬ Visited e.paths m.path) :
    (unvisited S (e.add m notices)).card < (unvisited S e).card := by
  refine Finset.card_lt_card (Finset.ssubset_iff_of_subset ?_ |>.2
    ⟨m.path.components, Finset.mem_filter.2 ⟨hS, fun q hq hsame => hnew ⟨q, hq, hsame⟩⟩, ?_⟩)
  · intro cs hcs
    obtain ⟨hcs, hne⟩ := Finset.mem_filter.1 hcs
    exact Finset.mem_filter.2 ⟨hcs, fun q hq => hne q (by simp [hq])⟩
  · intro hcs
    exact (Finset.mem_filter.1 hcs).2 m.path (by simp) rfl

theorem visited_of_unvisited_eq_empty {S : Finset (List Path.Component)} {e : Exploration} {q : Path}
    (hS : q.components ∈ S) (hnone : unvisited S e = ∅) : Visited e.paths q := by
  by_contra hnot
  have hmem : q.components ∈ unvisited S e :=
    Finset.mem_filter.2 ⟨hS, fun x hx hsame => hnot ⟨x, hx, hsame⟩⟩
  rw [hnone] at hmem
  cases hmem

/-- **Visiting a module**: what is visited with its requirements put in
front, but those that were visited before, is what is visited depth first. -/
theorem depthFirst_add {e : Exploration} {path : Path} {rest seen' : List Path} {c : Chunk}
    {failed : Option (Path × BuildError)} (notices : List Notice) (hnot : ¬ Visited e.paths path)
    (hcompile : view.compile p path = .ok c)
    (h : DepthFirst p view (e.add (compiled p view path c) notices).paths
      ((compiled p view path c).requires.modules.values.filter
        (fun q => !(e.add (compiled p view path c) notices).visited q) ++ rest) seen' failed) :
    DepthFirst p view e.paths (path :: rest) seen' failed := by
  have hchildren := children_ofModule p view path c
  rw [paths_add] at h
  have hall {seen₁ : List Path} {f : Option (Path × BuildError)}
      (h : DepthFirst p view (e.paths ++ [path]) ((compiled p view path c).requires.modules.values.filter
        fun q => !(e.add (compiled p view path c) notices).visited q) seen₁ f) :
      DepthFirst p view (e.paths ++ [path])
        ((Requirements.ofModule p view path c).1.modules.entries.map (·.2)) seen₁ f := by
    refine h.of_filter fun q _ hq => ?_
    have hq : (e.add (compiled p view path c) notices).visited q := by simpa using hq
    rw [visited_iff, paths_add] at hq
    exact hq
  rcases h.split with ⟨seen₁, hinner, hbehind⟩ | ⟨f, rfl, hinner⟩
  · exact .visited hnot hcompile hchildren (hall hinner) hbehind
  · exact .stopped hnot hcompile hchildren (hall hinner)

/-- **The exploration visits depth first**, with rounds for all files that
can be come across. -/
theorem explore_depthFirst {entry : Path} {S : Finset (List Path.Component)}
    (hS : ∀ q, Leads p view entry q → q.components ∈ S) : ∀ (rounds : ℕ) (pending : List Path)
    (e : Exploration), (∀ q ∈ pending, Leads p view entry q) → (unvisited S e).card ≤ rounds →
    ∃ failed, DepthFirst p view e.paths pending (explore p view rounds pending e).1.paths failed ∧
      (explore p view rounds pending e).2 = failed.map (·.2) := by
  intro rounds
  induction rounds with
  | zero =>
    intro pending e hpending hcard
    -- every file there is was visited
    exact ⟨none, .of_visited fun q hq => visited_of_unvisited_eq_empty (hS q (hpending q hq))
      (Finset.card_eq_zero.1 (Nat.le_zero.1 hcard)), rfl⟩
  | succ rounds ih =>
    intro pending e hpending hcard
    cases hdrop : pending.dropWhile e.visited with
    | nil =>
      rw [explore_nil hdrop]
      exact ⟨none, .of_dropWhile (hdrop ▸ .done) fun q => visited_iff.1, rfl⟩
    | cons path rest =>
      -- the first file not visited yet, and those it requires in front of the rest
      have hnot : ¬ Visited e.paths path := by
        have := List.head?_dropWhile_not e.visited pending
        rw [hdrop] at this
        rw [← visited_iff]
        simpa using this
      have hrest : ∀ q ∈ path :: rest, Leads p view entry q := by
        rw [← hdrop]
        exact fun q hq => hpending q ((List.dropWhile_suffix _).subset hq)
      rw [List.forall_mem_cons] at hrest
      rw [explore_cons hdrop]
      cases hcompile : view.compile p path with
      | error error =>
        refine ⟨some (path, error), .of_dropWhile ?_ fun q => visited_iff.1, rfl⟩
        rw [hdrop]
        exact .failed hnot hcompile
      | ok c =>
        dsimp only
        generalize (Requirements.ofModule p view path c).2 = notices
        have hfound : ∀ q ∈ (compiled p view path c).requires.modules.values,
            Leads p view entry q := by
          intro q hq
          obtain ⟨⟨name, q⟩, hentry, rfl⟩ := List.mem_map.1 hq
          exact .step hrest.1 hcompile (children_ofModule p view path c) hentry
        -- one file less is to visit, so the rounds that are left are enough
        obtain ⟨failed, hvisits, herror⟩ := ih _ (e.add (compiled p view path c) notices)
          (fun q hq => (List.mem_append.1 hq).elim
            (fun hq => hfound q (List.mem_of_mem_filter hq)) (hrest.2 q))
          (Nat.le_of_lt_succ ((card_unvisited notices (hS path hrest.1) hnot).trans_le hcard))
        refine ⟨failed, .of_dropWhile ?_ fun q => visited_iff.1, herror⟩
        rw [hdrop]
        exact depthFirst_add notices hnot hcompile hvisits

end Exploration

end LuaSugar
