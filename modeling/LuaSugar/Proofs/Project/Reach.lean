import Mathlib
import LuaSugar.FileTree
import LuaSugar.Proofs.Project.Ordered
import LuaSugar.Proofs.Project.Resolve
/-!
# How many files a reader comes across

A path is followed by its components only (`follow_eq`): they say where it
leads, if it leads anywhere. So of the paths that descend from directories
above some origins, no two from one directory lead to one file, and there
are no more of them than the view of a tree counts (`reachable_length`).
-/

namespace LuaSugar

/-- Where a component leads. -/
def Location.then (location : Location) : Path.Component → Location
  | .root => []
  | .current => location
  | .parent => location.dropLast
  | .name text => location ++ [text]

namespace FileTree

variable {t : FileTree}

/-- Where components lead, if they lead anywhere. -/
def land (t : FileTree) (cs : List Path.Component) : Location := cs.foldl Location.then t.current

theorem step_eq {location location' : Location} {piece : String}
    (h : t.step location piece = .ok location') :
    location' = ((Path.component? piece).toList).foldl Location.then location := by
  unfold step at h
  unfold Path.component?
  split at h
  · cases h
  · split at h
    · rename_i hfiller
      rw [if_pos hfiller]
      exact (Except.ok.inj h).symm
    · rename_i hfiller
      rw [if_neg hfiller]
      split at h
      · rename_i hdots
        rw [if_pos hdots]
        exact (Except.ok.inj h).symm
      · rename_i hdots
        rw [if_neg hdots]
        split at h
        · cases h
        · exact (Except.ok.inj h).symm
  · cases h

theorem steps_eq {pieces : List String} {start location : Location}
    (h : pieces.foldlM t.step start = .ok location) :
    location = (pieces.filterMap Path.component?).foldl Location.then start := by
  induction pieces generalizing start with
  | nil => exact (Except.ok.inj h).symm
  | cons piece pieces ih =>
    rw [List.foldlM_cons] at h
    cases hstep : t.step start piece with
    | error fault => rw [hstep] at h; cases h
    | ok next =>
      rw [hstep] at h
      rw [ih h, step_eq hstep]
      cases hc : Path.component? piece with
      | none => rw [List.filterMap_cons, hc]; rfl
      | some c => rw [List.filterMap_cons, hc]; rfl

/-- **A path leads where its components lead.** -/
theorem follow_eq {p : Path} {location : Location} (h : t.follow p = .ok location) :
    location = t.land p.components := by
  unfold follow at h
  split at h
  · cases h
  · split at h
    · cases h
    · rw [steps_eq h, land]
      rcases p.split_cases with ⟨next, rest, hpieces, hsplit⟩ | ⟨rest, hpieces, hsplit⟩ | ⟨hsplit, -⟩
      · have hcomponents := Path.components_eq hsplit
        rw [Path.isAbsolute, hcomponents, hpieces]
        rfl
      · have hcomponents := Path.components_eq hsplit
        rw [Path.isAbsolute, hcomponents, hpieces]
        rfl
      · have hcomponents := Path.components_eq hsplit
        simp only [Option.map_none, Option.toList_none, List.nil_append] at hcomponents
        have hrelative : p.isAbsolute = false := by
          rw [Path.isAbsolute, hcomponents, Path.head_ne_root]
        rw [hrelative, hcomponents]
        rfl

/-- Where files are. -/
def fileLocations (t : FileTree) : List Location :=
  t.nodes.entries.filterMap fun entry => if entry.2 = .directory then none else some entry.1

theorem length_fileLocations : t.fileLocations.length = t.fileCount := by
  unfold fileLocations fileCount Index.values
  rw [List.countP_map, List.length_filterMap_eq_countP]
  congr 1
  funext entry
  obtain ⟨location, node⟩ := entry
  cases node <;> rfl

theorem locate_eq {p : Path} {location : Location} {node : FileNode}
    (h : t.locate p = .ok (location, node)) :
    location = t.land p.components ∧ t.node? location = some node := by
  have hfind : t.find p = .ok (location, node) := by
    unfold locate at h
    by_cases hnul : hasNul p
    · rw [if_pos hnul] at h
      cases h
    · rw [if_neg hnul] at h
      by_cases hlong : isTooLong p
      · simp only [hlong, if_true] at h
        cases h
      · simpa only [hlong, Bool.false_eq_true, if_false] using h
  unfold find at hfind
  cases hfollow : t.follow p with
  | error fault => rw [hfollow] at hfind; cases hfind
  | ok location' =>
    rw [hfollow] at hfind
    simp only [bind, Except.bind] at hfind
    cases hnode : t.node? location' with
    | none => rw [hnode] at hfind; cases hfind
    | some node' =>
      rw [hnode] at hfind
      obtain ⟨rfl, rfl⟩ := Prod.mk.inj (Except.ok.inj hfind)
      exact ⟨follow_eq hfollow, hnode⟩

/-- A file is where its components lead. -/
theorem land_of_isFile {p : Path} (h : t.isFile p) : t.land p.components ∈ t.fileLocations := by
  unfold isFile at h
  cases hlocate : t.locate p with
  | error fault => simp [hlocate] at h
  | ok found =>
    obtain ⟨location, node⟩ := found
    obtain ⟨hlocation, hnode⟩ := locate_eq hlocate
    have hfile : node ≠ .directory := by
      rintro rfl
      simp [hlocate] at h
    rw [node?] at hnode
    split at hnode
    · exact absurd (Option.some.inj hnode).symm hfile
    · obtain ⟨key, hmem, hkey⟩ := Index.exists_of_find?_eq_some hnode
      obtain rfl := Std.LawfulEqOrd.eq_of_compare hkey
      rw [← hlocation]
      exact List.mem_filterMap.2 ⟨(location, node), hmem, if_neg hfile⟩

/-- The components of files that are found from directories above some
origins. -/
def reachable (t : FileTree) (origins : List Path) : List (List Path.Component) :=
  origins.flatMap fun o => (List.range (o.components.length + 1)).flatMap fun up =>
    (o.components.take up ++ [.parent]) :: t.fileLocations.map fun location =>
      o.components.take up ++
        (location.drop (t.land (o.components.take up)).length).map .name

/-- Names lead down. -/
theorem land_names (cs : List Path.Component) (names : List String) :
    t.land (cs ++ names.map .name) = t.land cs ++ names := by
  induction names using List.reverseRecOn with
  | nil => simp
  | append_singleton names name ih =>
    rw [List.map_append, ← List.append_assoc, land, List.foldl_append, ← land, ih]
    exact List.append_assoc _ _ _

/-- **Files that descend are reachable.** -/
theorem mem_reachable {origins : List Path} {cs : List Path.Component}
    (h : Require.Descends origins cs) (hfile : t.land cs ∈ t.fileLocations) :
    cs ∈ t.reachable origins := by
  obtain ⟨o, ho, up, hcs⟩ := h
  have hup : o.components.take up = o.components.take (min up o.components.length) := by simp
  refine List.mem_flatMap.2 ⟨o, ho, List.mem_flatMap.2 ⟨min up o.components.length,
    List.mem_range.2 (by omega), ?_⟩⟩
  rw [← hup]
  rcases hcs with rfl | ⟨names, -, rfl⟩
  · exact List.mem_cons_self
  · refine List.mem_cons_of_mem _ (List.mem_map.2 ⟨_, hfile, ?_⟩)
    rw [land_names, List.drop_left]

theorem length_components (p : Path) : p.components.length ≤ p.pieces.length := by
  obtain ⟨pieces⟩ := p
  cases pieces with
  | nil => exact Nat.zero_le _
  | cons piece behind =>
    have hlead : (Path.lead piece behind).length ≤ 1 := by
      unfold Path.lead
      split
      · split <;> simp
      · split
        · simp
        · cases Path.component? piece <;> simp
    have hbehind := List.length_filterMap_le Path.component? behind
    rw [Path.components_cons, List.length_append, List.length_cons]
    omega

/-- There are no more of them than a view counts. -/
theorem length_reachable (origins : List Path) :
    (t.reachable origins).length ≤ (t.view origins).reach := by
  simp only [reachable, view, List.length_flatMap, List.length_cons, List.length_map,
    length_fileLocations]
  induction origins with
  | nil => simp
  | cons o origins ih =>
    have ho := length_components o
    have hone : ((List.range (o.components.length + 1)).map fun _ => t.fileCount + 1).sum ≤
        (t.fileCount + 1) * (o.pieces.length + 1) := by
      rw [List.map_const', List.length_range, List.sum_replicate, smul_eq_mul, mul_comm]
      exact Nat.mul_le_mul_left _ (by omega)
    rw [List.map_cons, List.sum_cons, List.map_cons, List.sum_cons, mul_add]
    exact Nat.add_le_add hone ih

end FileTree

end LuaSugar
