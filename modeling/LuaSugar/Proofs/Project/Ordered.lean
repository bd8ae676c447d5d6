import Mathlib
import LuaSugar.Index
/-!
# Indexes in order

The entries of an index stand in strictly ascending order of their keys,
so no key is there twice: `Ordered` says so, the empty index is ordered and
insertion keeps it. What an index answers after an insertion is
`find?_insert`, and what its entries are is `mem_insert_iff` for a key that
it did not have.

Only the order of the keys is assumed to be one; keys that compare as equal
need not be the same.
-/

namespace LuaSugar.Index

variable {κ α : Type} [Ord κ] [Std.TransOrd κ] {index : Index κ α} {key : κ} {value : α}

theorem compare_swap (k k' : κ) : compare k k' = (compare k' k).swap := Std.OrientedCmp.eq_swap

omit [Std.TransOrd κ]

/-- Keys in strictly ascending order. -/
def Ordered (index : Index κ α) : Prop :=
  index.entries.Pairwise fun a b => compare a.1 b.1 = .lt

/-- An index without entries is in order. -/
theorem ordered_empty : (empty : Index κ α).Ordered := List.Pairwise.nil

/-! ## Look-up -/

/-- Nothing is found exactly where no key compares as equal. -/
theorem find?_eq_none_iff :
    index.find? key = none ↔ ∀ entry ∈ index.entries, compare key entry.1 ≠ .eq := by
  simp [find?]

/-- What is found is an entry. -/
theorem exists_of_find?_eq_some (h : index.find? key = some value) :
    ∃ k, (k, value) ∈ index.entries ∧ compare key k = .eq := by
  obtain ⟨⟨k, v⟩, hfind, rfl⟩ := Option.map_eq_some_iff.1 h
  exact ⟨k, List.mem_of_find?_eq_some hfind, by simpa using List.find?_some hfind⟩

variable [Std.TransOrd κ]

/-- Keys that compare as equal are one key. -/
theorem find?_congr {key' : κ} (h : compare key key' = .eq) : index.find? key = index.find? key' := by
  simp only [find?]
  congr 2
  funext entry
  rw [Std.TransCmp.congr_left h]

/-- An entry is found by its key where no other has it. -/
theorem Ordered.find?_of_mem (h : index.Ordered) (hm : (key, value) ∈ index.entries) :
    index.find? key = some value := by
  obtain ⟨entries⟩ := index
  induction entries with
  | nil => cases hm
  | cons entry entries ih =>
    obtain ⟨hlt, hrest⟩ := List.pairwise_cons.1 h
    rcases List.mem_cons.1 hm with rfl | hm
    · simp [find?]
    · have hne : compare key entry.1 ≠ .eq := by
        rw [compare_swap, hlt _ hm]
        decide
      have hfound := ih hrest hm
      simp only [find?] at hfound ⊢
      rw [List.find?_cons_of_neg (by simpa using hne)]
      exact hfound

/-! ## Insertion -/

/-- **What was inserted** is found at its key, and at others what was there. -/
theorem find?_insert (key' : κ) :
    (index.insert key value).find? key' =
      if compare key' key = .eq then some value else index.find? key' := by
  obtain ⟨entries⟩ := index
  simp only [insert, find?]
  -- on the entries, by how the key compares with the one in front
  induction entries with
  | nil =>
    by_cases h : compare key' key = .eq
    · simp [insertEntry, h]
    · simp [insertEntry, h]
  | cons entry entries ih =>
    obtain ⟨k, v⟩ := entry
    rw [insertEntry]
    cases hk : compare key k with
    | lt =>
      by_cases h : compare key' key = .eq
      · simp [h]
      · simp only [h, if_false]
        rw [List.find?_cons_of_neg (by simpa using h)]
    | eq =>
      have hkk : compare key' k = compare key' key := (Std.TransCmp.congr_right hk).symm
      by_cases h : compare key' key = .eq
      · simp [h, hkk]
      · simp only [h, if_false]
        rw [List.find?_cons_of_neg (by simpa [hkk] using h),
          List.find?_cons_of_neg (by simpa [hkk] using h)]
    | gt =>
      by_cases hk' : compare key' k = .eq
      · have hne : compare key' key ≠ .eq := by
          rw [Std.TransCmp.congr_left hk', compare_swap, hk]
          decide
        rw [List.find?_cons_of_pos (by simpa using hk'), List.find?_cons_of_pos (by simpa using hk'),
          if_neg hne]
      · rw [List.find?_cons_of_neg (by simpa using hk'), List.find?_cons_of_neg (by simpa using hk')]
        exact ih

/-- The key of an entry is contained from there on. -/
theorem contains_insert (key' : κ) :
    (index.insert key value).contains key' = (compare key' key == .eq || index.contains key') := by
  rw [contains, contains, find?_insert]
  by_cases h : compare key' key = .eq
  · simp [h]
  · simp [h]

omit [Std.TransOrd κ] in
/-- Insertion brings at most one entry, with the key or one that it had
before. -/
theorem mem_insert {entry : κ × α} (h : entry ∈ (index.insert key value).entries) :
    entry = (key, value) ∨ (∃ v, (entry.1, v) ∈ index.entries ∧ compare key entry.1 = .eq ∧
      entry.2 = value) ∨ entry ∈ index.entries := by
  obtain ⟨entries⟩ := index
  simp only [insert] at h ⊢
  induction entries with
  | nil => exact .inl (List.mem_singleton.1 h)
  | cons first entries ih =>
    obtain ⟨k, v⟩ := first
    rw [insertEntry] at h
    -- before the first entry, at it, or further behind
    cases hk : compare key k with
    | lt =>
      rw [hk] at h
      exact (List.mem_cons.1 h).imp_right .inr
    | eq =>
      rw [hk] at h
      rcases List.mem_cons.1 h with rfl | h
      · exact .inr (.inl ⟨v, List.mem_cons_self, hk, rfl⟩)
      · exact .inr (.inr (List.mem_cons_of_mem _ h))
    | gt =>
      rw [hk] at h
      rcases List.mem_cons.1 h with rfl | h
      · exact .inr (.inr List.mem_cons_self)
      · rcases ih h with h | ⟨w, hw, heq⟩ | h
        · exact .inl h
        · exact .inr (.inl ⟨w, List.mem_cons_of_mem _ hw, heq⟩)
        · exact .inr (.inr (List.mem_cons_of_mem _ h))

omit [Std.TransOrd κ] in
/-- The entries with one more under a new key. -/
theorem perm_insert (h : index.find? key = none) :
    (index.insert key value).entries.Perm ((key, value) :: index.entries) := by
  obtain ⟨entries⟩ := index
  rw [find?_eq_none_iff] at h
  simp only [insert] at h ⊢
  induction entries with
  | nil => exact .refl _
  | cons first entries ih =>
    obtain ⟨k, v⟩ := first
    rw [List.forall_mem_cons] at h
    rw [insertEntry]
    cases hk : compare key k with
    | lt => exact .refl _
    | eq => exact absurd hk h.1
    | gt => exact ((ih h.2).cons _).trans (.swap _ _ _)

omit [Std.TransOrd κ] in
/-- A new entry is added to those that are there. -/
theorem mem_insert_iff (h : index.find? key = none) {entry : κ × α} :
    entry ∈ (index.insert key value).entries ↔ entry = (key, value) ∨ entry ∈ index.entries := by
  rw [(perm_insert h).mem_iff, List.mem_cons]

/-- **Insertion keeps the order.** -/
theorem Ordered.insert (h : index.Ordered) : (index.insert key value).Ordered := by
  obtain ⟨entries⟩ := index
  simp only [Ordered, Index.insert] at h ⊢
  induction entries with
  | nil => exact List.pairwise_singleton _ _
  | cons first entries ih =>
    obtain ⟨k, v⟩ := first
    obtain ⟨hlt, hrest⟩ := List.pairwise_cons.1 h
    rw [insertEntry]
    cases hk : compare key k with
    | lt =>
      refine List.pairwise_cons.2 ⟨?_, h⟩
      intro entry hm
      rcases List.mem_cons.1 hm with rfl | hm
      · exact hk
      · exact Std.TransCmp.lt_trans hk (hlt entry hm)
    | eq => exact List.pairwise_cons.2 ⟨hlt, hrest⟩
    | gt =>
      have hgt : compare k key = .lt := by
        rw [compare_swap, hk]
        rfl
      refine List.pairwise_cons.2 ⟨fun entry hm => ?_, ih hrest⟩
      rcases mem_insert (show entry ∈ (Index.insert ⟨entries⟩ key value).entries from hm) with rfl | ⟨w, hw, -, -⟩ | hm
      · exact hgt
      · exact hlt (entry.1, w) hw
      · exact hlt _ hm

/-! ## Keys that are one if they compare as equal -/

section

omit [Std.TransOrd κ]

variable [Std.LawfulEqOrd κ]

/-- The keys are those that are contained. -/
theorem mem_keys_iff : key ∈ index.keys ↔ index.contains key := by
  rw [contains, Option.isSome_iff_ne_none, Ne, find?_eq_none_iff]
  simp only [not_forall, not_not]
  constructor
  · intro h
    obtain ⟨entry, hentry, rfl⟩ := List.mem_map.1 h
    exact ⟨entry, hentry, Std.LawfulEqOrd.compare_eq_iff_eq.2 rfl⟩
  · rintro ⟨entry, hentry, hkey⟩
    obtain rfl := Std.LawfulEqOrd.eq_of_compare hkey
    exact List.mem_map_of_mem hentry

variable [Std.TransOrd κ] {set : KeySet κ} {new : κ}

/-- A set contains what is added to it. -/
theorem contains_add_iff : (set.add new).contains key ↔ key = new ∨ set.contains key := by
  rw [add, contains_insert, Bool.or_eq_true, beq_iff_eq, Std.LawfulEqOrd.compare_eq_iff_eq]

theorem mem_keys_add : key ∈ (set.add new).keys ↔ key = new ∨ key ∈ set.keys := by
  rw [mem_keys_iff, mem_keys_iff, contains_add_iff]

end

end LuaSugar.Index
