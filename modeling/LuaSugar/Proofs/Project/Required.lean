import Mathlib
import LuaSugar.Proofs.Project.Ordered
import LuaSugar.Require.Requirements
/-!
# What modules require

The calls of a module are sorted one after the other, and what is required
afterwards is what some call requires: a file under a local name stands for
a call with that name, which leads there, an address or a package for a
call with its text (`ofModule_sound`). Merging keeps every name and brings
in nothing that neither side has (`contains_union`, `mem_union`,
`mem_outside_union`).
-/

namespace LuaSugar

/-! ## Packages in order -/

namespace Package

theorem versionOrder_eq (v w : Option String) : versionOrder v w = compare v w := by
  cases v <;> cases w <;> rfl

/-- Packages are sorted by their fields in turn. -/
theorem order_eq : order = compareLex (compareOn protocol)
    (compareLex (compareOn name) (compareLex (compareOn version) (compareOn specifier))) := by
  funext q r
  rw [order, versionOrder_eq]
  rfl

instance : Std.TransOrd Package := by
  show Std.TransCmp order
  rw [order_eq]
  infer_instance

/-- Packages that are sorted as one are one. -/
instance : Std.LawfulEqOrd Package where
  eq_of_compare := by
    rintro ⟨protocol, name, version, specifier⟩ ⟨protocol', name', version', specifier'⟩ h
    replace h : order _ _ = .eq := h
    simp only [order, versionOrder_eq, Ordering.then_eq_eq, Std.LawfulEqOrd.compare_eq_iff_eq] at h
    obtain ⟨rfl, rfl, rfl, rfl⟩ := h
    rfl

end Package

namespace Requirements

/-! ## Files -/

theorem insertModule_modules (r : Requirements) (name : String) (path : Path) :
    (r.insertModule name path).1 =
      if r.modules.contains name then r else { r with modules := r.modules.insert name path } := by
  unfold insertModule Index.contains
  cases r.modules.find? name with
  | none => rfl
  | some first => rfl

/-- Files are in the order of their names. -/
theorem ordered_insertModule {r : Requirements} (h : r.modules.Ordered) (name : String) (path : Path) :
    (r.insertModule name path).1.modules.Ordered := by
  rw [insertModule_modules]
  split
  · exact h
  · exact h.insert

/-- A name that had a file keeps it, another gets one. -/
theorem mem_insertModule (r : Requirements) (name : String) (path : Path)
    (entry : String × Path) : entry ∈ (r.insertModule name path).1.modules.entries ↔
      entry ∈ r.modules.entries ∨ entry = (name, path) ∧ r.modules.contains name = false := by
  rw [insertModule_modules]
  by_cases h : r.modules.contains name
  · simp [h]
  · have hnone : r.modules.find? name = none := by simpa [Index.contains] using h
    rw [if_neg h, Index.mem_insert_iff hnone]
    simp [Bool.eq_false_iff.2 h, or_comm]

theorem contains_insertModule (r : Requirements) (name : String) (path : Path) (key : String) :
    (r.insertModule name path).1.modules.contains key =
      (key == name || r.modules.contains key) := by
  rw [insertModule_modules]
  by_cases h : r.modules.contains name
  · rw [if_pos h]
    by_cases hkey : key = name
    · simp [hkey, h]
    · simp [hkey]
  · rw [if_neg h, Index.contains_insert]
    congr 1
    rw [Bool.eq_iff_iff, beq_iff_eq, beq_iff_eq]
    exact Std.LawfulEqOrd.compare_eq_iff_eq

theorem insertModules_packages (r : Requirements) (entries : List (String × Path)) :
    (r.insertModules entries).1.packages = r.packages ∧
      (r.insertModules entries).1.uris = r.uris := by
  induction entries generalizing r with
  | nil => exact ⟨rfl, rfl⟩
  | cons entry entries ih =>
    have hfirst : (r.insertModule entry.1 entry.2).1.packages = r.packages ∧
        (r.insertModule entry.1 entry.2).1.uris = r.uris := by
      rw [insertModule_modules]
      split <;> exact ⟨rfl, rfl⟩
    obtain ⟨hpackages, huris⟩ := ih (r.insertModule entry.1 entry.2).1
    exact ⟨hpackages.trans hfirst.1, huris.trans hfirst.2⟩

theorem ordered_insertModules {r : Requirements} (h : r.modules.Ordered)
    (entries : List (String × Path)) : (r.insertModules entries).1.modules.Ordered := by
  induction entries generalizing r with
  | nil => exact h
  | cons entry entries ih => exact ih (ordered_insertModule h entry.1 entry.2)

theorem mem_insertModules {r : Requirements} {entries : List (String × Path)}
    {entry : String × Path} (h : entry ∈ (r.insertModules entries).1.modules.entries) :
    entry ∈ r.modules.entries ∨ entry ∈ entries := by
  induction entries generalizing r with
  | nil => exact .inl h
  | cons first entries ih =>
    rcases ih h with h | h
    · rcases (mem_insertModule r first.1 first.2 entry).1 h with h | ⟨rfl, -⟩
      · exact .inl h
      · exact .inr List.mem_cons_self
    · exact .inr (List.mem_cons_of_mem _ h)

theorem contains_insertModules (r : Requirements) (entries : List (String × Path)) (key : String) :
    (r.insertModules entries).1.modules.contains key =
      (r.modules.contains key || entries.any fun entry => key == entry.1) := by
  induction entries generalizing r with
  | nil => simp [insertModules]
  | cons first entries ih =>
    have hrest := ih (r.insertModule first.1 first.2).1
    rw [contains_insertModule] at hrest
    rw [List.any_cons, ← Bool.or_assoc, Bool.or_comm (r.modules.contains key)]
    exact hrest

/-! ## Merging -/

theorem mem_add {κ : Type} [Ord κ] {set : KeySet κ} {new key : κ} (h : key ∈ (set.add new).keys) :
    key = new ∨ key ∈ set.keys := by
  obtain ⟨entry, hentry, rfl⟩ := List.mem_map.1 h
  rcases Index.mem_insert hentry with rfl | ⟨v, hv, -, -⟩ | hold
  · exact .inl rfl
  · exact .inr (List.mem_map.2 ⟨_, hv, rfl⟩)
  · exact .inr (List.mem_map.2 ⟨_, hold, rfl⟩)

theorem mem_addAll {κ : Type} [Ord κ] {set : KeySet κ} {keys : List κ} {key : κ}
    (h : key ∈ (set.addAll keys).keys) : key ∈ set.keys ∨ key ∈ keys := by
  induction keys generalizing set with
  | nil => exact .inl h
  | cons new keys ih =>
    rcases ih (show key ∈ ((set.add new).addAll keys).keys from h) with h | h
    · rcases mem_add h with rfl | h
      · exact .inr List.mem_cons_self
      · exact .inl h
    · exact .inr (List.mem_cons_of_mem _ h)

theorem mem_outside {r : Requirements} {reference : Reference} : reference ∈ r.outside ↔
    (∃ uri ∈ r.uris.keys, .uri uri = reference) ∨
      ∃ package ∈ r.packages.keys, .package package = reference := by
  rw [outside, List.mem_append, List.mem_map, List.mem_map]

/-- Merging keeps the order of files. -/
theorem ordered_union {r : Requirements} (h : r.modules.Ordered) (other : Requirements) :
    (r.union other).1.modules.Ordered :=
  ordered_insertModules h other.modules.entries

/-- A file that is required after merging was required by one side. -/
theorem mem_union {r other : Requirements} {entry : String × Path}
    (h : entry ∈ (r.union other).1.modules.entries) :
    entry ∈ r.modules.entries ∨ entry ∈ other.modules.entries :=
  mem_insertModules h

/-- **Merging keeps every name.** -/
theorem contains_union (r other : Requirements) (key : String) :
    (r.union other).1.modules.contains key =
      (r.modules.contains key || other.modules.entries.any fun entry => key == entry.1) :=
  contains_insertModules r other.modules.entries key

/-- So it is with what is required from outside. -/
theorem mem_outside_union {r other : Requirements} {reference : Reference}
    (h : reference ∈ (r.union other).1.outside) :
    reference ∈ r.outside ∨ reference ∈ other.outside := by
  obtain ⟨hpackages, huris⟩ := insertModules_packages r other.modules.entries
  rw [mem_outside] at h ⊢
  rw [mem_outside]
  simp only [union, hpackages, huris] at h
  rcases h with ⟨uri, huri, rfl⟩ | ⟨package, hpackage, rfl⟩
  · exact (mem_addAll huri).imp (fun h => .inl ⟨uri, h, rfl⟩) fun h => .inl ⟨uri, h, rfl⟩
  · exact (mem_addAll hpackage).imp (fun h => .inr ⟨package, h, rfl⟩)
      fun h => .inr ⟨package, h, rfl⟩

/-! ## The calls of a module -/

/-- What calls of a file require: the files that local names lead to, in
the order of the names, and outside what calls refer to. -/
structure Sound (p : Project) (view : FileView) (file : Path) (calls : List Require.Call)
    (r : Requirements) : Prop where
  ordered : r.modules.Ordered
  modules : ∀ name path, (name, path) ∈ r.modules.entries ↔
    (∃ call ∈ calls, Reference.ofSpecifier? call.specifier = some (.localModule name)) ∧
      Require.resolve? view p.root file name = some path
  outside : ∀ reference ∈ r.outside,
    ∃ call ∈ calls, Reference.ofSpecifier? call.specifier = some reference

variable {p : Project} {view : FileView} {file : Path} {calls : List Require.Call}
variable {r : Requirements} {call : Require.Call}

/-- What one call adds. -/
theorem add_requirements (s : Sorting) : (s.add p view file call).requirements =
    match Reference.ofSpecifier? call.specifier with
    | some (.uri uri) => s.requirements.insertUri uri
    | some (.package package) => s.requirements.insertPackage package
    | some (.localModule name) =>
      match Require.resolve? view p.root file name with
      | some path => (s.requirements.insertModule name path).1
      | none => s.requirements
    | none => s.requirements := by
  unfold Sorting.add
  rcases Reference.ofSpecifier? call.specifier with _ | (uri | package | name)
  · rfl
  · rfl
  · rfl
  · dsimp only
    cases Require.resolve? view p.root file name with
    | some path => rfl
    | none =>
      dsimp only
      split <;> rfl

namespace Sound

variable (h : r.Sound p view file calls)
include h

theorem earlier {reference : Reference} (hr : reference ∈ r.outside) :
    ∃ c ∈ calls ++ [call], Reference.ofSpecifier? c.specifier = some reference := by
  obtain ⟨c, hc, href⟩ := h.outside reference hr
  exact ⟨c, List.mem_append_left _ hc, href⟩

/-- A call that leads to no file changes nothing about files. -/
theorem modules_add (hcall : ∀ name, Reference.ofSpecifier? call.specifier =
    some (.localModule name) → Require.resolve? view p.root file name = none) (name : String)
    (path : Path) : (name, path) ∈ r.modules.entries ↔
      (∃ c ∈ calls ++ [call], Reference.ofSpecifier? c.specifier = some (.localModule name)) ∧
        Require.resolve? view p.root file name = some path := by
  rw [h.modules]
  constructor
  · rintro ⟨⟨c, hc, href⟩, hpath⟩
    exact ⟨⟨c, List.mem_append_left _ hc, href⟩, hpath⟩
  · rintro ⟨⟨c, hc, href⟩, hpath⟩
    rcases List.mem_append.1 hc with hc | hc
    · exact ⟨⟨c, hc, href⟩, hpath⟩
    · obtain rfl := List.mem_singleton.1 hc
      rw [hcall name href] at hpath
      cases hpath

theorem insertUri {uri : String}
    (href : Reference.ofSpecifier? call.specifier = some (.uri uri)) :
    (r.insertUri uri).Sound p view file (calls ++ [call]) := by
  refine ⟨h.ordered, h.modules_add (by simp [href]), fun reference hr => ?_⟩
  rcases mem_outside.1 hr with ⟨key, hkey, rfl⟩ | hpackage
  · rcases mem_add hkey with rfl | hkey
    · exact ⟨call, by simp, href⟩
    · exact h.earlier (mem_outside.2 (.inl ⟨key, hkey, rfl⟩))
  · exact h.earlier (mem_outside.2 (.inr hpackage))

theorem insertPackage {package : Package}
    (href : Reference.ofSpecifier? call.specifier = some (.package package)) :
    (r.insertPackage package).Sound p view file (calls ++ [call]) := by
  refine ⟨h.ordered, h.modules_add (by simp [href]), fun reference hr => ?_⟩
  rcases mem_outside.1 hr with huri | ⟨key, hkey, rfl⟩
  · exact h.earlier (mem_outside.2 (.inl huri))
  · rcases mem_add hkey with rfl | hkey
    · exact ⟨call, by simp, href⟩
    · exact h.earlier (mem_outside.2 (.inr ⟨key, hkey, rfl⟩))

theorem insertModule {name : String} {path : Path}
    (href : Reference.ofSpecifier? call.specifier = some (.localModule name))
    (hpath : Require.resolve? view p.root file name = some path) :
    (r.insertModule name path).1.Sound p view file (calls ++ [call]) := by
  refine ⟨ordered_insertModule h.ordered name path, fun name' path' => ?_, fun reference hr => ?_⟩
  · rw [mem_insertModule, h.modules]
    constructor
    · rintro (⟨⟨c, hc, href'⟩, hpath'⟩ | ⟨hentry, -⟩)
      · exact ⟨⟨c, List.mem_append_left _ hc, href'⟩, hpath'⟩
      · obtain ⟨rfl, rfl⟩ := Prod.mk.inj hentry
        exact ⟨⟨call, by simp, href⟩, hpath⟩
    · rintro ⟨⟨c, hc, href'⟩, hpath'⟩
      rcases List.mem_append.1 hc with hc | hc
      · exact .inl ⟨⟨c, hc, href'⟩, hpath'⟩
      · obtain rfl := List.mem_singleton.1 hc
        obtain rfl : name = name' := by simpa [href] using href'
        obtain rfl : path = path' := by simpa [hpath] using hpath'
        by_cases hnew : r.modules.contains name
        · -- the file the name has is the one it leads to
          obtain ⟨first, hfirst⟩ := Option.isSome_iff_exists.1 hnew
          obtain ⟨key, hmem, hkey⟩ := Index.exists_of_find?_eq_some hfirst
          obtain rfl := Std.LawfulEqOrd.eq_of_compare hkey
          obtain ⟨hcall, hfirst'⟩ := (h.modules name first).1 hmem
          exact .inl ⟨hcall, hpath⟩
        · exact .inr ⟨rfl, by simpa using hnew⟩
  · have hr : reference ∈ r.outside := by
      rw [insertModule_modules] at hr
      split at hr <;> exact hr
    exact h.earlier hr

/-- One more call. -/
theorem add {s : Sorting} (hs : s.requirements = r) :
    (s.add p view file call).requirements.Sound p view file (calls ++ [call]) := by
  rw [add_requirements, hs]
  have hstill (hcall : ∀ name, Reference.ofSpecifier? call.specifier =
      some (.localModule name) → Require.resolve? view p.root file name = none) :
      r.Sound p view file (calls ++ [call]) :=
    ⟨h.ordered, h.modules_add hcall, fun reference hr => h.earlier hr⟩
  rcases href : Reference.ofSpecifier? call.specifier with _ | (uri | package | name)
  · exact hstill (by simp [href])
  · exact h.insertUri href
  · exact h.insertPackage href
  · dsimp only
    cases hpath : Require.resolve? view p.root file name with
    | some path => exact h.insertModule href hpath
    | none =>
      exact hstill fun name' href' => by
        obtain rfl : name = name' := by simpa [href] using href'
        exact hpath

end Sound

/-- **What a module requires** is what its calls refer to. -/
theorem ofModule_sound (p : Project) (view : FileView) (file : Path) (c : Chunk) :
    (ofModule p view file c).1.Sound p view file (Require.Call.ofChunk c) := by
  unfold ofModule
  generalize Require.Call.ofChunk c = calls
  induction calls using List.reverseRecOn with
  | nil =>
    refine ⟨Index.ordered_empty, by simp [empty, Index.empty], ?_⟩
    simp [empty, Index.empty, outside, Index.keys]
  | append_singleton calls call ih =>
    rw [List.foldl_append]
    exact ih.add rfl

end Requirements

end LuaSugar
