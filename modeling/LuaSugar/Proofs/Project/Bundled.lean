import Mathlib
import LuaSugar.Project.Build
import LuaSugar.Proofs.Desugar.Sequence
import LuaSugar.Proofs.Project.Bundle
import LuaSugar.Proofs.Project.Closure
import LuaSugar.Proofs.Project.Fetched
/-!
# Bundled projects

What is put into a bundle is what the walk and the fetching found: a module
for every local name that leads to another file than the entry, and one for
every text from outside that was fetched. No name is there twice, since a
local name and a text from outside are never the same, and every module is
there as it was compiled (`bundled_holds`).
-/

namespace LuaSugar

variable {p : Project} {view : FileView} {entry : Path} {s : ModuleSet}

/-! ## Compiled chunks -/

theorem Project.compile_sound {source : String} {c : Chunk} (h : p.compile source = .ok c) :
    c.Sound .anything False := by
  unfold Project.compile at h
  cases hcompile : LuaSugar.compile p.config.elementConstructor source with
  | error e =>
    rw [hcompile] at h
    cases h
  | ok c₀ =>
    rw [hcompile] at h
    obtain rfl := Except.ok.inj h
    exact (LuaSugar.compile_sound hcompile).apply (.naming p.config.name)

theorem FileView.compile_sound {path : Path} {c : Chunk} (h : view.compile p path = .ok c) :
    c.Sound .anything False := by
  unfold compile at h
  cases hread : view.read path with
  | error fault =>
    rw [hread] at h
    cases h
  | ok source =>
    rw [hread] at h
    cases hcompile : p.compile source with
    | error cause =>
      simp only [Except.mapError, bind, Except.bind, hcompile] at h
      cases h
    | ok c' =>
      simp only [Except.mapError, bind, Except.bind, hcompile] at h
      obtain rfl := Except.ok.inj h
      exact Project.compile_sound hcompile

theorem Chunk.Sound.exists_ranked {V : Vocabulary} {R : Prop} {c : Chunk} (h : c.Sound V R) :
    (∃ ρ, c.arena.Ranked ρ) ∧ ∀ x ∈ Block.ids c.body, x.index < c.arena.size := by
  obtain ⟨rank, hsound⟩ := h.arena
  exact ⟨⟨rank, hsound.ranked⟩, h.inside⟩

/-! ## What a closed set of modules requires -/

theorem ModuleSet.mem_dependencies {name : String} {c : Chunk} : (name, c) ∈ s.dependencies ↔
    ∃ path, (name, path) ∈ s.requires.modules.entries ∧ ¬ path.same s.entry ∧
      s.chunks.find? path = some c := by
  rw [dependencies, List.mem_filterMap]
  constructor
  · rintro ⟨⟨name', path⟩, hentry, hc⟩
    dsimp only at hc
    obtain ⟨hother, hc⟩ := Option.ite_none_left_eq_some.1 hc
    obtain ⟨c', hfind, heq⟩ := Option.map_eq_some_iff.1 hc
    obtain ⟨rfl, rfl⟩ := Prod.mk.inj heq
    exact ⟨path, hentry, hother, hfind⟩
  · rintro ⟨path, hentry, hother, hfind⟩
    refine ⟨(name, path), hentry, ?_⟩
    dsimp only
    rw [if_neg hother, hfind]
    rfl

namespace ModuleSet.Closed

variable (h : s.Closed p view)
include h

/-- A module and its chunk are those of a compiled file. -/
theorem compile_chunk {m : Module} (hm : m ∈ s.modules) : view.compile p m.path = .ok m.chunk := by
  obtain ⟨c, hcompile, heq⟩ := h.sound.compiled m hm
  rw [heq]
  exact hcompile

theorem compile_entryChunk : view.compile p s.entry = .ok s.entryChunk := by
  obtain ⟨m, hm, hpath⟩ := h.entry
  have hfind := find?_chunks h.distinct hm (congrArg Path.components hpath)
  rw [entryChunk, hfind, ← hpath]
  exact h.compile_chunk hm

/-- **A local name refers to itself.** -/
theorem ofSpecifier?_of_required {name : String} {path : Path}
    (hentry : (name, path) ∈ s.requires.modules.entries) :
    Reference.ofSpecifier? name = some (.localModule name) := by
  obtain ⟨m, hm, hmem⟩ := h.sound.required _ hentry
  obtain ⟨c, -, heq⟩ := h.sound.compiled m hm
  rw [heq] at hmem
  obtain ⟨⟨call, -, hcall⟩, -⟩ := ((Requirements.ofModule_sound p view m.path c).modules _ _).1 hmem
  rwa [← Reference.text_of_ofSpecifier? hcall] at hcall

/-- What is required from outside was read off texts. -/
theorem genuine_outside : FetchedModule.Genuine s.requires.outside := by
  intro reference hreference
  obtain ⟨m, hm, hmem⟩ := h.sound.outside _ hreference
  obtain ⟨c, -, heq⟩ := h.sound.compiled m hm
  rw [heq] at hmem
  obtain ⟨call, -, hcall⟩ := (Requirements.ofModule_sound p view m.path c).outside _ hmem
  rwa [Reference.text_of_ofSpecifier? hcall]

/-- **No dependency is missing**: each local name that leads to another file
than the entry has one. -/
theorem mem_dependencies_names {name : String} : name ∈ s.dependencies.map Prod.fst ↔
    ∃ path, (name, path) ∈ s.requires.modules.entries ∧ ¬ path.same s.entry := by
  rw [List.mem_map]
  constructor
  · rintro ⟨⟨name, c⟩, hmem, rfl⟩
    obtain ⟨path, hentry, hother, -⟩ := mem_dependencies.1 hmem
    exact ⟨path, hentry, hother⟩
  · rintro ⟨path, hentry, hother⟩
    obtain ⟨m, -, -, hfind⟩ := h.find?_required hentry
    exact ⟨(name, m.chunk), mem_dependencies.2 ⟨path, hentry, hother, hfind⟩, rfl⟩

theorem nodup_dependencies : (s.dependencies.map Prod.fst).Nodup := by
  have hnames : (s.requires.modules.entries.map Prod.fst).Nodup := by
    refine List.pairwise_map.2 (h.sound.ordered.imp fun {a b} hlt heq => ?_)
    rw [heq, Std.LawfulEqOrd.compare_eq_iff_eq.2 rfl] at hlt
    cases hlt
  refine hnames.sublist ?_
  rw [dependencies]
  generalize s.requires.modules.entries = entries
  induction entries with
  | nil => exact .slnil
  | cons first entries ih =>
    rw [List.filterMap_cons]
    split
    · exact ih.cons _
    · rename_i hsome
      obtain ⟨-, hsome⟩ := Option.ite_none_left_eq_some.1 hsome
      obtain ⟨c, -, rfl⟩ := Option.map_eq_some_iff.1 hsome
      exact ih.cons_cons _

end ModuleSet.Closed

/-! ## The bundle -/

/-- **A bundle holds exactly what the project requires.** After a walk and
the fetching that succeed, the names in the bundle are pairwise distinct:
the local names that lead to another file than the entry, and the texts of
the modules that were fetched. What stands under a name is the compiled
chunk of its file, or of the source that its text asks for. The bundle is
three statements and the entry, as it was compiled; without a dependency it
is the entry alone. -/
theorem bundled_holds (hview : view.Limited p entry) (fetcher : Fetcher) (site : Site)
    {fetched : List FetchedModule} (hs : (ModuleSet.reachedFrom p view entry).1 = .ok s)
    (hfetched : ((if s.requires.needsFetching then FetchedModule.fetchAll p fetcher s.requires
      else pure [] : Building (List FetchedModule)).run.run site).1 = .ok fetched) :
    let contents := s.dependencies ++ fetched.map fun m => (m.specifier, m.chunk)
    (contents.map Prod.fst).Nodup ∧
    (∀ name, name ∈ contents.map Prod.fst ↔
      (∃ path, (name, path) ∈ s.requires.modules.entries ∧ ¬ path.same entry) ∨
        ∃ m ∈ fetched, m.specifier = name) ∧
    (∀ name c, (name, c) ∈ contents →
      (∃ path file, (name, path) ∈ s.requires.modules.entries ∧ s.chunks.find? path = some c ∧
        file.components = path.components ∧ view.compile p file = .ok c) ∨
      ∃ m ∈ fetched, m.specifier = name ∧ m.chunk = c ∧ m.Sound p fetcher) ∧
    view.compile p entry = .ok s.entryChunk ∧
    (contents = [] → Project.bundled s fetched = s.entryChunk) ∧
    (contents ≠ [] → Bundle.Holds s.entryChunk contents (Project.bundled s fetched)) := by
  intro contents
  obtain ⟨rfl, hclosed⟩ := ModuleSet.closed_of_reachedFrom hview hs
  have hcollected : FetchedModule.Collected p fetcher .empty fetched := by
    split at hfetched
    · exact FetchedModule.fetchAll_yields _ hclosed.genuine_outside site fetched hfetched
    · obtain rfl := Except.ok.inj hfetched
      exact FetchedModule.collected_nil _
  have hnames : contents.map Prod.fst =
      s.dependencies.map Prod.fst ++ fetched.map FetchedModule.specifier := by
    rw [List.map_append, List.map_map]
    rfl
  have hfiles {name : String} {c : Chunk} (hmem : (name, c) ∈ s.dependencies) :
      ∃ path file, (name, path) ∈ s.requires.modules.entries ∧ s.chunks.find? path = some c ∧
        file.components = path.components ∧ view.compile p file = .ok c := by
    obtain ⟨path, hentry, -, hfind⟩ := ModuleSet.mem_dependencies.1 hmem
    obtain ⟨m, hm, hsame, hfind'⟩ := hclosed.find?_required hentry
    obtain rfl := Option.some.inj (hfind'.symm.trans hfind)
    exact ⟨path, m.path, hentry, hfind, hsame, hclosed.compile_chunk hm⟩
  have hcontents {name : String} {c : Chunk} (hmem : (name, c) ∈ contents) :
      (name, c) ∈ s.dependencies ∨ ∃ m ∈ fetched, m.specifier = name ∧ m.chunk = c := by
    refine (List.mem_append.1 hmem).imp_right fun hmem => ?_
    obtain ⟨m, hm, heq⟩ := List.mem_map.1 hmem
    obtain ⟨rfl, rfl⟩ := Prod.mk.inj heq
    exact ⟨m, hm, rfl, rfl⟩
  refine ⟨?_, fun name => ?_, fun name c hmem => ?_, hclosed.compile_entryChunk, fun hnone => ?_,
    fun hsome => ?_⟩
  · rw [hnames]
    refine List.Nodup.append hclosed.nodup_dependencies hcollected.distinct fun name hlocal hout => ?_
    -- a local name refers to a module among the files, a fetched text to one from outside
    obtain ⟨path, hentry, -⟩ := hclosed.mem_dependencies_names.1 hlocal
    obtain ⟨m, hm, rfl⟩ := List.mem_map.1 hout
    obtain ⟨⟨reference, hreference, hrequest⟩, -⟩ := hcollected.sound m hm
    rw [hclosed.ofSpecifier?_of_required hentry] at hreference
    obtain rfl := Option.some.inj hreference
    cases hrequest
  · rw [hnames, List.mem_append, hclosed.mem_dependencies_names, List.mem_map]
  · refine (hcontents hmem).imp hfiles ?_
    rintro ⟨m, hm, hname, hc⟩
    exact ⟨m, hm, hname, hc, hcollected.sound m hm⟩
  · unfold Project.bundled
    split
    · rfl
    · rename_i hne
      exact absurd hnone hne
  · have hsound : ∀ m ∈ contents, m.2.Sound .anything False := by
      rintro ⟨name, c⟩ hmem
      rcases hcontents hmem with hmem | ⟨m, hm, -, rfl⟩
      · obtain ⟨path, file, -, -, -, hcompile⟩ := hfiles hmem
        exact FileView.compile_sound hcompile
      · obtain ⟨source, -, hcompile⟩ := (hcollected.sound m hm).obtained
        exact Project.compile_sound hcompile
    have hbundle : Project.bundled s fetched = bundle s.entryChunk contents := by
      unfold Project.bundled
      split
      · rename_i hnone
        exact absurd hnone hsome
      · rfl
    rw [hbundle]
    exact Bundle.holds_bundle s.entryChunk fun m hm => (hsound m hm).exists_ranked

/-- An entry that requires a file, which requires the entry and so needs no
place for it in the bundle. -/
theorem bundled_holds_pair :
    let p : Project := ⟨.ofText "/p", .named "p"⟩
    let entry := Path.ofText "/p/init.lua"
    let view := FileView.listed
      ((Index.empty.insert entry "require 'a'").insert (.ofText "/p/a.lu") "return require 'init'")
    ∃ s, view.Limited p entry ∧ (ModuleSet.reachedFrom p view entry).1 = .ok s ∧
      s.requires.modules.keys = ["a", "init"] ∧ s.dependencies.map Prod.fst = ["a"] ∧
      Bundle.Holds s.entryChunk s.dependencies (Project.bundled s []) := by
  intro p entry view
  have hrun : (match (ModuleSet.reachedFrom p view entry).1 with
      | .error _ => false
      | .ok s => !s.requires.needsFetching && s.requires.modules.keys == ["a", "init"] &&
        s.dependencies.map Prod.fst == ["a"]) = true := by
    decide +kernel
  split at hrun
  · cases hrun
  rename_i s hs
  simp only [Bool.and_eq_true, Bool.not_eq_true', beq_iff_eq] at hrun
  obtain ⟨⟨hlocal, hkeys⟩, hnames⟩ := hrun
  have hlimited : view.Limited p entry := FileView.limited_listed _
  obtain ⟨-, -, -, -, -, hholds⟩ := @bundled_holds p view entry s hlimited (.offline "")
    (.ofFiles .empty) [] hs (by rw [hlocal]; rfl)
  rw [List.map_nil, List.append_nil] at hholds
  refine ⟨s, hlimited, hs, hkeys, hnames, hholds fun hnone => ?_⟩
  rw [hnone] at hnames
  cases hnames

end LuaSugar
