import Mathlib
import LuaSugar.Proofs.Project.DepthFirst
import LuaSugar.Proofs.Project.Reach
/-!
# The modules of a project are the closure of its entry

A view with finitely many files is `Limited`, whether the files are listed
or stand in a tree. Of such a view the modules of a project are the files
that a depth-first visit from the entry comes across, and where no file
fails they are the least set that has the entry and with every file the
files it requires (`reachedFrom_depthFirst`).
-/

namespace LuaSugar

variable {p : Project} {view : FileView} {entry : Path}

/-! ## Views with finitely many files -/

/-- Views of finitely many files: as a list that has every path of a file,
however it is spelled, or as a tree. -/
inductive FileView.Limited (p : Project) (entry : Path) : FileView → Prop
  | listed {view : FileView} (files : List Path) :
      (∀ path, view.isFile path → ∃ file ∈ files, file.components = path.components) →
      files.length ≤ view.reach → Limited p entry view
  | tree (t : FileTree) : Limited p entry (t.view [p.root, entry])

/-- A list of files is limited. -/
theorem FileView.limited_listed (files : Index Path String) :
    (FileView.listed files).Limited p entry := by
  refine .listed files.keys (fun path hpath => ?_) (by simp [Index.keys, listed, Index.size])
  obtain ⟨text, htext⟩ := Option.isSome_iff_exists.1 hpath
  obtain ⟨file, hfile, hsame⟩ := Index.exists_of_find?_eq_some htext
  exact ⟨file, List.mem_map_of_mem hfile, (Path.compare_eq_iff.1 hsame).symm⟩

/-- A required file is a file. -/
theorem Children.isFile {file : Path} {c : Chunk} {entries : List (String × Path)}
    (h : Children p view file c entries) {name : String} {path : Path}
    (hentry : (name, path) ∈ entries) :
    view.isFile path ∧ path ∈ Require.candidates name file p.root := by
  obtain ⟨-, hpath⟩ := (h.mem_iff name path).1 hentry
  exact ⟨List.find?_some hpath, List.mem_of_find?_eq_some hpath⟩

theorem Leads.isFile {path : Path} (h : Leads p view entry path) :
    path = entry ∨ view.isFile path := by
  cases h with
  | entry => exact .inl rfl
  | step _ _ hchildren hentry => exact .inr (hchildren.isFile hentry).1

/-- What an entry leads to stands below the directories above the entry and
the root. -/
theorem Leads.descends {path : Path} (h : Leads p view entry path) :
    Require.Descends [p.root, entry] path.components := by
  induction h with
  | entry => exact (Require.directory_of_mem (by simp)).descends
  | step _ _ hchildren hentry ih =>
    exact Require.descends_candidates (by simp) ih (hchildren.isFile hentry).2

/-- **A limited view has rounds for all files** that an entry leads to. -/
theorem FileView.Limited.exists_finset (h : view.Limited p entry) :
    ∃ S : Finset (List Path.Component), S.card ≤ view.reach + 1 ∧
      ∀ q, Leads p view entry q → q.components ∈ S := by
  have hcard (l : List (List Path.Component)) (hl : l.length ≤ view.reach) :
      (entry.components :: l).toFinset.card ≤ view.reach + 1 :=
    (List.toFinset_card_le _).trans (Nat.succ_le_succ hl)
  cases h with
  | listed files hfiles hreach =>
    refine ⟨_, hcard (files.map Path.components) (by rwa [List.length_map]), fun q hq => ?_⟩
    rw [List.mem_toFinset, List.mem_cons]
    refine hq.isFile.imp (congrArg _) fun hfile => ?_
    obtain ⟨file, hmem, hsame⟩ := hfiles q hfile
    exact List.mem_map.2 ⟨file, hmem, hsame⟩
  | tree t =>
    refine ⟨_, hcard (t.reachable [p.root, entry]) (t.length_reachable _), fun q hq => ?_⟩
    rw [List.mem_toFinset, List.mem_cons]
    exact hq.isFile.imp (congrArg _) fun hfile =>
      FileTree.mem_reachable hq.descends (FileTree.land_of_isFile hfile)

/-! ## What a visit comes across -/

namespace DepthFirst

variable {seen todo seen' : List Path} {failed : Option (Path × BuildError)}

/-- Without a failure all that was pending is visited. -/
theorem visited_todo (h : DepthFirst p view seen todo seen' failed) (hnone : failed = none) :
    ∀ q ∈ todo, Visited seen' q := by
  induction h with
  | done => simp
  | again hseen h ih =>
    exact List.forall_mem_cons.2 ⟨hseen.mono h.seen_subset, ih hnone⟩
  | failed _ _ => cases hnone
  | visited _ _ _ hinner hrest _ ih =>
    refine List.forall_mem_cons.2 ⟨⟨_, ?_, rfl⟩, ih hnone⟩
    exact hrest.seen_subset _ (hinner.seen_subset _ (by simp))
  | stopped _ _ _ _ _ => cases hnone

/-- Every file that is visited compiles, and without a failure all that it
requires is visited. -/
theorem compiled (h : DepthFirst p view seen todo seen' failed) :
    ∀ q ∈ seen', q ∈ seen ∨ ∃ c entries, view.compile p q = .ok c ∧ Children p view q c entries ∧
      (failed = none → ∀ entry ∈ entries, Visited seen' entry.2) := by
  induction h with
  | done => exact fun q hq => .inl hq
  | again _ _ ih => exact ih
  | failed _ _ => exact fun q hq => .inl hq
  | @visited seen path rest c entries seen₁ seen' failed _ hcompile hchildren hinner hrest ihinner ihrest =>
    intro q hq
    rcases ihrest q hq with hq | hnew
    · rcases ihinner q hq with hq | ⟨c', entries', hcompile', hchildren', hvisited⟩
      · rcases List.mem_append.1 hq with hq | hq
        · exact .inl hq
        · obtain rfl := List.mem_singleton.1 hq
          refine .inr ⟨c, entries, hcompile, hchildren, fun _ entry hentry => ?_⟩
          -- the files that the file requires were next to visit
          exact (hinner.visited_todo rfl _ (List.mem_map_of_mem hentry)).mono hrest.seen_subset
      · exact .inr ⟨c', entries', hcompile', hchildren', fun _ entry hentry =>
          (hvisited rfl entry hentry).mono hrest.seen_subset⟩
    · exact .inr hnew
  | @stopped seen path rest c entries seen' failed _ hcompile hchildren _ ih =>
    intro q hq
    rcases ih q hq with hq | hnew
    · rcases List.mem_append.1 hq with hq | hq
      · exact .inl hq
      · obtain rfl := List.mem_singleton.1 hq
        exact .inr ⟨c, entries, hcompile, hchildren, fun h => by cases h⟩
    · exact .inr hnew

/-- **What is visited is required**: a property of the pending files that
goes from a file to those it requires holds of all that are visited, and of
the one that fails. -/
theorem induction_visited {X : Path → Prop} (h : DepthFirst p view seen todo seen' failed)
    (hstep : ∀ q c entries name r, X q → view.compile p q = .ok c → Children p view q c entries →
      (name, r) ∈ entries → X r)
    (hseen : ∀ q ∈ seen, X q) (htodo : ∀ q ∈ todo, X q) :
    (∀ q ∈ seen', X q) ∧ ∀ f, failed = some f → X f.1 := by
  -- what a file requires has the property, as the file has
  have hfiles {path : Path} {c : Chunk} {entries : List (String × Path)} (hpath : X path)
      (hcompile : view.compile p path = .ok c) (hchildren : Children p view path c entries) :
      ∀ q ∈ entries.map (·.2), X q := by
    intro q hq
    obtain ⟨⟨name, q⟩, hentry, rfl⟩ := List.mem_map.1 hq
    exact hstep path c entries name q hpath hcompile hchildren hentry
  -- so have the files seen, with this one
  have hsnoc {seen : List Path} {path : Path} (hseen : ∀ q ∈ seen, X q) (hpath : X path) :
      ∀ q ∈ seen ++ [path], X q := by
    intro q hq
    rcases List.mem_append.1 hq with hq | hq
    · exact hseen q hq
    · rwa [List.mem_singleton.1 hq]
  induction h with
  | done => exact ⟨hseen, by simp⟩
  | again _ _ ih => exact ih hseen (List.forall_mem_cons.1 htodo).2
  | failed _ _ =>
    refine ⟨hseen, fun f hf => ?_⟩
    obtain rfl := Option.some.inj hf
    exact (List.forall_mem_cons.1 htodo).1
  | visited _ hcompile hchildren _ _ ihinner ihrest =>
    obtain ⟨hpath, hrest⟩ := List.forall_mem_cons.1 htodo
    obtain ⟨hinner, -⟩ := ihinner (hsnoc hseen hpath) (hfiles hpath hcompile hchildren)
    exact ihrest hinner hrest
  | stopped _ hcompile hchildren _ ih =>
    obtain ⟨hpath, -⟩ := List.forall_mem_cons.1 htodo
    exact ih (hsnoc hseen hpath) (hfiles hpath hcompile hchildren)

/-- The file that a visit starts with is the one that is visited. -/
theorem first_mem (h : DepthFirst p view [] [entry] seen' none) : entry ∈ seen' := by
  cases h with
  | again hseen _ =>
    obtain ⟨q, hq, -⟩ := hseen
    cases hq
  | visited _ _ _ hinner hrest => exact hrest.seen_subset _ (hinner.seen_subset entry (by simp))

/-- No file is visited twice. -/
theorem distinct (h : DepthFirst p view seen todo seen' failed)
    (hseen : seen.Pairwise fun q r => q.components ≠ r.components) :
    seen'.Pairwise fun q r => q.components ≠ r.components := by
  have hsnoc {seen : List Path} {path : Path} (hnot : ¬ Visited seen path)
      (hseen : seen.Pairwise fun q r => q.components ≠ r.components) :
      (seen ++ [path]).Pairwise fun q r => q.components ≠ r.components := by
    refine List.pairwise_append.2 ⟨hseen, List.pairwise_singleton _ _, fun q hq r hr hsame => ?_⟩
    rw [List.mem_singleton.1 hr] at hsame
    exact hnot ⟨q, hq, hsame⟩
  induction h with
  | done | failed _ _ => exact hseen
  | again _ _ ih => exact ih hseen
  | visited hnot _ _ _ _ ihinner ihrest => exact ihrest (ihinner (hsnoc hnot hseen))
  | stopped hnot _ _ _ ih => exact ih (hsnoc hnot hseen)

/-- **The file that fails** was not visited, and the failure is its own. -/
theorem failed_spec (h : DepthFirst p view seen todo seen' failed) {path : Path} {error : BuildError}
    (hfailed : failed = some (path, error)) :
    view.compile p path = .error error ∧ ¬ Visited seen' path := by
  induction h with
  | done => cases hfailed
  | again _ _ ih => exact ih hfailed
  | failed hnot hcompile =>
    obtain ⟨rfl, rfl⟩ := Prod.mk.inj (Option.some.inj hfailed)
    exact ⟨hcompile, hnot⟩
  | visited _ _ _ _ _ _ ih => exact ih hfailed
  | stopped _ _ _ _ ih => exact ih hfailed

end DepthFirst

/-! ## What an exploration holds -/

namespace Exploration

/-- The modules are compiled files, and what they require together is what
each requires: every name, with a file of a module that requires it. -/
structure Sound (p : Project) (view : FileView) (e : Exploration) : Prop where
  compiled : ∀ m ∈ e.modules, ∃ c, view.compile p m.path = .ok c ∧
    m = Exploration.compiled p view m.path c
  ordered : e.requires.modules.Ordered
  required : ∀ entry ∈ e.requires.modules.entries, ∃ m ∈ e.modules,
    entry ∈ m.requires.modules.entries
  contains : ∀ m ∈ e.modules, ∀ entry ∈ m.requires.modules.entries,
    e.requires.modules.contains entry.1
  outside : ∀ reference ∈ e.requires.outside, ∃ m ∈ e.modules, reference ∈ m.requires.outside

theorem sound_empty : Sound p view empty where
  compiled := by simp [empty]
  ordered := Index.ordered_empty
  required := by simp [empty, Requirements.empty, Index.empty]
  contains := by simp [empty]
  outside := by simp [empty, Requirements.empty, Index.empty, Requirements.outside, Index.keys]

/-- One more module. -/
theorem Sound.add {e : Exploration} (h : Sound p view e) {path : Path} {c : Chunk}
    (hcompile : view.compile p path = .ok c) (notices : List Notice) :
    Sound p view (e.add (Exploration.compiled p view path c) notices) := by
  -- one module more, and what it requires besides what was required
  have hmodules {m : Module} :
      m ∈ (e.add (Exploration.compiled p view path c) notices).modules ↔
        m ∈ e.modules ∨ m = Exploration.compiled p view path c := by
    simp [Exploration.add]
  have hrequires : (e.add (Exploration.compiled p view path c) notices).requires =
      (e.requires.union (Exploration.compiled p view path c).requires).1 := rfl
  refine ⟨?_, ?_, ?_, ?_, ?_⟩
  · intro m hm
    rcases hmodules.1 hm with hm | rfl
    · exact h.compiled m hm
    · exact ⟨c, hcompile, rfl⟩
  · rw [hrequires]
    exact Requirements.ordered_union h.ordered _
  · intro entry hentry
    rw [hrequires] at hentry
    rcases Requirements.mem_union hentry with hold | hnew
    · obtain ⟨m, hm, hmem⟩ := h.required entry hold
      exact ⟨m, hmodules.2 (.inl hm), hmem⟩
    · exact ⟨_, hmodules.2 (.inr rfl), hnew⟩
  · intro m hm entry hentry
    rw [hrequires, Requirements.contains_union, Bool.or_eq_true]
    rcases hmodules.1 hm with hm | rfl
    · exact .inl (h.contains m hm entry hentry)
    · exact .inr (List.any_eq_true.2 ⟨entry, hentry, beq_self_eq_true _⟩)
  · intro reference href
    rw [hrequires] at href
    rcases Requirements.mem_outside_union href with hold | hnew
    · obtain ⟨m, hm, hmem⟩ := h.outside reference hold
      exact ⟨m, hmodules.2 (.inl hm), hmem⟩
    · exact ⟨_, hmodules.2 (.inr rfl), hnew⟩

/-- **A whole exploration** keeps it. -/
theorem Sound.explore (rounds : ℕ) (pending : List Path) {e : Exploration} (h : Sound p view e) :
    Sound p view (Exploration.explore p view rounds pending e).1 := by
  induction rounds generalizing pending e with
  | zero => exact h
  | succ rounds ih =>
    cases hdrop : pending.dropWhile e.visited with
    | nil => rwa [explore_nil hdrop]
    | cons path rest =>
      rw [explore_cons hdrop]
      cases hcompile : view.compile p path with
      | error error => exact h
      | ok c => exact ih _ (h.add hcompile _)

end Exploration

/-! ## The chunks by file -/

namespace ModuleSet

/-- The chunks are those of the modules, if no file is there twice. -/
theorem perm_chunks {s : ModuleSet}
    (h : (s.modules.map Module.path).Pairwise fun q r => q.components ≠ r.components) :
    s.chunks.Ordered ∧ s.chunks.entries.Perm (s.modules.map fun m => (m.path, m.chunk)) := by
  unfold chunks
  generalize s.modules = modules at h
  induction modules using List.reverseRecOn with
  | nil => exact ⟨Index.ordered_empty, .refl _⟩
  | append_singleton modules m ih =>
    rw [List.map_append, List.pairwise_append] at h
    obtain ⟨hfront, -, hnew⟩ := h
    obtain ⟨hordered, hperm⟩ := ih hfront
    rw [List.foldl_append, List.foldl_cons, List.foldl_nil]
    have hnone : (modules.foldl (fun chunks m => chunks.insert m.path m.chunk)
        (Index.empty : Index Path Chunk)).find? m.path = none := by
      rw [Index.find?_eq_none_iff]
      intro entry hentry hsame
      obtain ⟨m', hm', rfl⟩ := List.mem_map.1 (hperm.mem_iff.1 hentry)
      exact hnew m'.path (List.mem_map_of_mem hm') m.path (by simp)
        (Path.compare_eq_iff.1 hsame).symm
    refine ⟨hordered.insert, (Index.perm_insert hnone).trans ?_⟩
    rw [List.map_append]
    exact ((hperm.cons _).trans (List.perm_append_singleton _ _).symm)

variable {s : ModuleSet}

/-- A file of a module has its chunk. -/
theorem find?_chunks (h : (s.modules.map Module.path).Pairwise fun q r => q.components ≠ r.components)
    {m : Module} (hm : m ∈ s.modules) {path : Path} (hpath : m.path.components = path.components) :
    s.chunks.find? path = some m.chunk := by
  obtain ⟨hordered, hperm⟩ := perm_chunks h
  rw [Index.find?_congr (Path.compare_eq_iff.2 hpath.symm)]
  exact hordered.find?_of_mem (hperm.mem_iff.2 (List.mem_map.2 ⟨m, hm, rfl⟩))

/-- What a successful walk finds: the entry and with every module the
modules that it requires. -/
structure Closed (p : Project) (view : FileView) (s : ModuleSet) : Prop where
  distinct : (s.modules.map Module.path).Pairwise fun q r => q.components ≠ r.components
  sound : Exploration.Sound p view ⟨s.modules, s.requires, []⟩
  entry : ∃ m ∈ s.modules, m.path = s.entry
  closed : ∀ m ∈ s.modules, ∀ entry ∈ m.requires.modules.entries,
    ∃ m' ∈ s.modules, m'.path.components = entry.2.components

theorem Closed.find?_required (h : s.Closed p view) {name : String} {path : Path}
    (hentry : (name, path) ∈ s.requires.modules.entries) :
    ∃ m ∈ s.modules, m.path.components = path.components ∧ s.chunks.find? path = some m.chunk := by
  obtain ⟨m, hm, hmem⟩ := h.sound.required _ hentry
  obtain ⟨m', hm', hsame⟩ := h.closed m hm _ hmem
  exact ⟨m', hm', hsame, find?_chunks h.distinct hm' hsame⟩

end ModuleSet

/-! ## The walk -/

/-- The exploration from an entry and its failure, as a depth-first visit. -/
theorem exists_depthFirst (h : view.Limited p entry) : ∃ failed,
    DepthFirst p view [] [entry]
      (Exploration.explore p view (view.reach + 1) [entry] .empty).1.paths failed ∧
    (Exploration.explore p view (view.reach + 1) [entry] .empty).2 = failed.map (·.2) := by
  obtain ⟨S, hcard, hS⟩ := h.exists_finset
  exact Exploration.explore_depthFirst hS (view.reach + 1) [entry] .empty
    (by simpa using Leads.entry) ((Finset.card_filter_le _ _).trans hcard)

/-- A walk that succeeds is a visit without a failure. -/
theorem ModuleSet.exists_of_reachedFrom (h : view.Limited p entry) {s : ModuleSet}
    (hs : (ModuleSet.reachedFrom p view entry).1 = .ok s) :
    DepthFirst p view [] [entry] (s.modules.map Module.path) none ∧
      s = ⟨entry, (Exploration.explore p view (view.reach + 1) [entry] .empty).1.modules,
        (Exploration.explore p view (view.reach + 1) [entry] .empty).1.requires⟩ := by
  obtain ⟨failed, hvisits, herror⟩ := exists_depthFirst h
  unfold ModuleSet.reachedFrom at hs
  rcases hleft : Exploration.explore p view (view.reach + 1) [entry] .empty with ⟨e, _ | error⟩
  · rw [hleft] at hs hvisits herror
    obtain rfl := Except.ok.inj hs
    cases failed with
    | none => exact ⟨hvisits, rfl⟩
    | some f => cases herror
  · rw [hleft] at hs
    cases hs

/-- **A walk that succeeds finds a closed set of modules.** -/
theorem ModuleSet.closed_of_reachedFrom (h : view.Limited p entry) {s : ModuleSet}
    (hs : (ModuleSet.reachedFrom p view entry).1 = .ok s) : s.entry = entry ∧ s.Closed p view := by
  obtain ⟨hvisits, heq⟩ := exists_of_reachedFrom h hs
  have hsound : Exploration.Sound p view ⟨s.modules, s.requires, []⟩ := by
    have he := (Exploration.sound_empty : Exploration.Sound p view .empty).explore (view.reach + 1)
      [entry]
    rw [heq]
    exact ⟨he.compiled, he.ordered, he.required, he.contains, he.outside⟩
  have hmodule {path : Path} (hpath : Visited (s.modules.map Module.path) path) :
      ∃ m ∈ s.modules, m.path.components = path.components := by
    obtain ⟨q, hq, hsame⟩ := hpath
    obtain ⟨m, hm, rfl⟩ := List.mem_map.1 hq
    exact ⟨m, hm, hsame⟩
  refine ⟨by rw [heq], hvisits.distinct List.Pairwise.nil, hsound, ?_, ?_⟩
  · obtain ⟨m, hm, hpath⟩ := List.mem_map.1 hvisits.first_mem
    exact ⟨m, hm, by rw [hpath, heq]⟩
  · intro m hm entry' hentry'
    obtain ⟨c, hcompile, hcompiled⟩ := hsound.compiled m hm
    rcases hvisits.compiled m.path (List.mem_map_of_mem hm) with hq | ⟨c', entries, hcompile', hchildren, hall⟩
    · cases hq
    · obtain rfl := Except.ok.inj (hcompile.symm.trans hcompile')
      rw [hcompiled] at hentry'
      obtain rfl := hchildren.unique (children_ofModule p view m.path c)
      exact hmodule (hall rfl entry' hentry')

/-- A failure to compile a file names the file. -/
theorem FileView.compile_error {path : Path} {error : BuildError}
    (h : view.compile p path = .error error) :
    (∃ fault, error = .file path fault) ∨ ∃ cause, error = .source path cause := by
  unfold compile at h
  cases hread : view.read path with
  | error fault =>
    rw [hread] at h
    exact .inl ⟨fault, (Except.error.inj h).symm⟩
  | ok source =>
    rw [hread] at h
    cases hcompile : p.compile source with
    | error cause =>
      simp only [Except.mapError, bind, Except.bind, hcompile] at h
      exact .inr ⟨cause, (Except.error.inj h).symm⟩
    | ok c =>
      simp only [Except.mapError, bind, Except.bind, hcompile] at h
      cases h

/-- **The modules of a project are a depth-first closure.** Of a view with
finitely many files, the walk from an entry compiles the files of the
depth-first visit in its order, of which there is one. If no file fails,
the files of the chunks are those that were visited; they are the least set
that has the entry and with a file those that it requires, and the files of
all names that the modules together require are among them. If one fails,
it is the first in that order, and the error names it. -/
theorem reachedFrom_depthFirst (p : Project) (entry : Path) (view : FileView)
    (h : view.Limited p entry) :
    let order := (Exploration.explore p view (view.reach + 1) [entry] .empty).1.paths
    ∃ failed, DepthFirst p view [] [entry] order failed ∧
      (∀ order' failed', DepthFirst p view [] [entry] order' failed' →
        order' = order ∧ failed' = failed) ∧
      match (ModuleSet.reachedFrom p view entry).1 with
      | .ok s => failed = none ∧ s.modules.map Module.path = order ∧
        s.chunks.keys.Perm order ∧ entry ∈ s.chunks.keys ∧
        (∀ q ∈ s.chunks.keys, ∃ c entries, view.compile p q = .ok c ∧ s.chunks.find? q = some c ∧
          Children p view q c entries ∧ ∀ r ∈ entries, s.chunks.contains r.2) ∧
        (∀ X : Path → Prop, X entry →
          (∀ q c entries name r, X q → view.compile p q = .ok c → Children p view q c entries →
            (name, r) ∈ entries → X r) → ∀ q ∈ s.chunks.keys, X q) ∧
        ∀ r ∈ s.requires.modules.entries, s.chunks.contains r.2
      | .error error => ∃ path, failed = some (path, error) ∧ ¬ Visited order path ∧
        view.compile p path = .error error ∧
        ((∃ fault, error = .file path fault) ∨ ∃ cause, error = .source path cause) := by
  intro order
  obtain ⟨failed, hvisits, herror⟩ := exists_depthFirst h
  refine ⟨failed, hvisits, fun order' failed' h' => h'.unique hvisits, ?_⟩
  cases hresult : (ModuleSet.reachedFrom p view entry).1 with
  | ok s =>
    -- the walk that succeeded is the only visit, so that its modules, the
    -- chunks and the order are the same files
    obtain ⟨hsuccess, heq⟩ := ModuleSet.exists_of_reachedFrom h hresult
    obtain ⟨hentry, hclosed⟩ := ModuleSet.closed_of_reachedFrom h hresult
    obtain ⟨horder, rfl⟩ : s.modules.map Module.path = order ∧ none = failed :=
      hsuccess.unique hvisits
    obtain ⟨hordered, hperm⟩ := ModuleSet.perm_chunks hclosed.distinct
    have hkeys : s.chunks.keys.Perm order := by
      have hmap := hperm.map Prod.fst
      rw [List.map_map] at hmap
      rw [← horder]
      exact hmap
    have hmem {q : Path} (hq : q ∈ s.chunks.keys) : ∃ m ∈ s.modules, m.path = q := by
      rw [hkeys.mem_iff, ← horder] at hq
      exact List.mem_map.1 hq
    have hcontains {path : Path} (hm : ∃ m ∈ s.modules, m.path.components = path.components) :
        s.chunks.contains path := by
      obtain ⟨m, hm, hsame⟩ := hm
      rw [Index.contains, ModuleSet.find?_chunks hclosed.distinct hm hsame]
      rfl
    refine ⟨rfl, horder, hkeys, hkeys.mem_iff.2 (horder ▸ hsuccess.first_mem), ?_, ?_, ?_⟩
    · intro q hq
      obtain ⟨m, hm, rfl⟩ := hmem hq
      obtain ⟨c, hcompile, hcompiled⟩ := hclosed.sound.compiled m hm
      refine ⟨c, _, hcompile, ?_, children_ofModule p view m.path c, fun r hr => ?_⟩
      · rw [ModuleSet.find?_chunks hclosed.distinct hm rfl, hcompiled]
        rfl
      · refine hcontains (hclosed.closed m hm r ?_)
        rw [hcompiled]
        exact hr
    · intro X hX hstep q hq
      rw [hkeys.mem_iff, ← horder] at hq
      exact (hsuccess.induction_visited hstep (by simp) (by simpa using hX)).1 q hq
    · rintro ⟨name, path⟩ hr
      obtain ⟨m, hm, hsame, -⟩ := hclosed.find?_required hr
      exact hcontains ⟨m, hm, hsame⟩
  | error error =>
    -- a walk fails exactly where the visit stops
    have hleft : (Exploration.explore p view (view.reach + 1) [entry] .empty).2 = some error := by
      unfold ModuleSet.reachedFrom at hresult
      rcases hleft : Exploration.explore p view (view.reach + 1) [entry] .empty with ⟨e, _ | error'⟩
      · rw [hleft] at hresult
        cases hresult
      · rw [hleft] at hresult
        exact congrArg some (Except.error.inj hresult)
    rw [hleft] at herror
    obtain ⟨⟨path, error'⟩, rfl, rfl⟩ := Option.map_eq_some_iff.1 herror.symm
    obtain ⟨hcompile, hnot⟩ := hvisits.failed_spec rfl
    exact ⟨path, rfl, hnot, hcompile, FileView.compile_error hcompile⟩

/-- Three files that require each other in a circle. -/
theorem reachedFrom_depthFirst_cycle :
    let p : Project := ⟨.ofText "/p", .named "p"⟩
    let entry := Path.ofText "/p/init.lua"
    let view := FileView.listed (((Index.empty.insert entry "require 'b'").insert
      (.ofText "/p/b.lu") "require './a'").insert (.ofText "/p/a.lu") "require 'init'")
    let order := (Exploration.explore p view (view.reach + 1) [entry] .empty).1.paths
    view.Limited p entry ∧ order.map Path.text = ["/p/init.lua", "/p/b.lu", "/p/a.lu"] ∧
      ∃ failed, DepthFirst p view [] [entry] order failed := by
  intro p entry view order
  have hlimited : view.Limited p entry := FileView.limited_listed _
  obtain ⟨failed, hvisits, -⟩ := reachedFrom_depthFirst p entry view hlimited
  exact ⟨hlimited, by decide +kernel, failed, hvisits⟩

end LuaSugar
