import Mathlib
import LuaSugar.Proofs.Project.Marks
import LuaSugar.Proofs.Token.Scanned
/-!
# The order in which calls are reported

Calls are found list by list, and at a statement those in its lists and in
its literals before its own; then they are sorted by line. Whether this is
the order in which they are written can be told of each statement alone: its
own calls and those inside it must be so far apart that the lines decide
(`Tidy`). If all statements are tidy the calls are reported in written
order, and not otherwise (`ofChunk_in_order`).
-/

namespace LuaSugar

/-! ## Sorting -/

section Sorting

variable {α : Type} {le : α → α → Bool} {S : α → α → Prop} {x y : α} {l : List α}

theorem not_sublist_swap (hl : l.Nodup) (h : [x, y].Sublist l) : ¬ [y, x].Sublist l := by
  induction l with
  | nil => cases h
  | cons z l ih =>
    rw [List.nodup_cons] at hl
    intro h'
    cases h with
    | cons _ h =>
      cases h' with
      | cons _ h' => exact ih hl.2 h h'
      | cons_cons _ h' => exact hl.1 (h.subset (by simp))
    | cons_cons _ h =>
      cases h' with
      | cons _ h' => exact hl.1 (h'.subset (by simp))
      | cons_cons _ h' => exact hl.1 (h.subset (by simp))

/-- Of two items of a list one is before the other. -/
theorem either_of_pairwise (h : l.Pairwise S) (hx : x ∈ l) (hy : y ∈ l) (hne : x ≠ y) :
    S x y ∨ S y x := by
  have heither : l.Pairwise fun x y => S x y ∨ S y x := h.imp .inl
  have : Std.Symm fun x y => S x y ∨ S y x := ⟨fun _ _ => .symm⟩
  exact heither.forall hx hy hne

theorem sublist_or_sublist (hx : x ∈ l) (hy : y ∈ l) (hne : x ≠ y) :
    [x, y].Sublist l ∨ [y, x].Sublist l :=
  either_of_pairwise (S := fun x y => [x, y].Sublist l) (List.pairwise_iff_forall_sublist.2 fun h => h)
    hx hy hne

/-- **What a stable sort leaves in order**: of two items the one that was
before the other, unless that has to come first. -/
theorem pairwise_mergeSort_iff (trans : ∀ a b c, le a b → le b c → le a c)
    (total : ∀ a b, le a b || le b a) (hl : l.Nodup) : (l.mergeSort le).Pairwise S ↔
      l.Pairwise fun x y => if le x y then S x y else S y x := by
  have hsorted := List.pairwise_mergeSort trans total l
  have hnodup := (l.mergeSort_perm le).nodup_iff.2 hl
  simp only [List.pairwise_iff_forall_sublist] at hsorted ⊢
  constructor
  · intro h x y hxy
    split
    · rename_i hle
      exact h (List.pair_sublist_mergeSort trans total hle hxy)
    · rename_i hle
      have hmem {z : α} (hz : z ∈ [x, y]) : z ∈ l.mergeSort le :=
        List.mem_mergeSort.2 (hxy.subset hz)
      have hne : x ≠ y := fun heq => hle (by simpa [heq] using total y y)
      refine h ((sublist_or_sublist (hmem (by simp)) (hmem (by simp)) hne).resolve_left fun hxy => ?_)
      exact hle (hsorted hxy)
  · intro h x y hxy
    have hmem {z : α} (hz : z ∈ [x, y]) : z ∈ l := List.mem_mergeSort.1 (hxy.subset hz)
    have hne : x ≠ y := by simpa using hnodup.sublist hxy
    rcases sublist_or_sublist (hmem (by simp)) (hmem (by simp)) hne with hl' | hl'
    · simpa [hsorted hxy] using h hl'
    · have hswap := h hl'
      -- had `y` not to come behind `x`, it would have stayed before it
      by_cases hle : le y x
      · exact (not_sublist_swap hnodup hxy (List.pair_sublist_mergeSort trans total hle hl')).elim
      · simpa [hle] using hswap

end Sorting

open Require

/-- Two calls, found one behind the other, are written in the order in which
sorting by line leaves them. -/
def Sorts (spot : ExprId → ℕ) (x y : ExprId × Call) : Prop :=
  if x.2.line ≤ y.2.line then spot x.1 < spot y.1 else spot y.1 < spot x.1

namespace Sorts

variable {spot : ExprId → ℕ} {x y : ExprId × Call}

theorem of_le (hline : x.2.line ≤ y.2.line) (hlt : spot x.1 < spot y.1) : Sorts spot x y := by
  rwa [Sorts, if_pos hline]

theorem of_lt (hline : y.2.line < x.2.line) (hlt : spot y.1 < spot x.1) : Sorts spot x y := by
  rwa [Sorts, if_neg hline.not_ge]

theorem line_le (h : Sorts spot x y) (hlt : spot x.1 < spot y.1) : x.2.line ≤ y.2.line := by
  by_contra hline
  rw [Sorts, if_neg hline] at h
  exact hlt.asymm h

theorem line_lt (h : Sorts spot x y) (hlt : spot y.1 < spot x.1) : y.2.line < x.2.line := by
  by_contra hline
  rw [Sorts, if_pos (not_lt.1 hline)] at h
  exact hlt.asymm h

end Sorts

namespace Chunk

/-- The calls at and below a root of a statement. -/
def own (c : Chunk) (s : Stmt) (r : ExprId) : List (ExprId × Call) :=
  (c.arena.descendants r).filterMap (c.arena.site? s.line)

/-- The calls in the literals below a root as they are written. -/
def literal (c : Chunk) (r : ExprId) : List (ExprId × Call) := c.arena.bodies c.written r

/-- **A statement is tidy** if lines tell its own calls from those inside it
wherever these are not found in written order: in literals they are found
before its own, in lists before all others. -/
structure Tidy (c : Chunk) (spot : ExprId → ℕ) (s : Stmt) : Prop where
  /-- What stands before a call of its own is on no later line. -/
  before : ∀ x ∈ s.kind.blocks.flatMap c.written ++ s.kind.roots.flatMap c.literal,
    ∀ y ∈ s.kind.roots.flatMap (c.own s), spot x.1 < spot y.1 → x.2.line ≤ s.line
  /-- What stands in a list behind a call of its own or in a literal is on a
  later line. -/
  list : ∀ x ∈ s.kind.blocks.flatMap c.written,
    ∀ y ∈ s.kind.roots.flatMap fun r => c.literal r ++ c.own s r, spot y.1 < spot x.1 →
      y.2.line < x.2.line
  /-- What stands in a literal behind a call of its own below the same root is
  on a later line. -/
  literal : ∀ r ∈ s.kind.roots, ∀ x ∈ c.literal r, ∀ y ∈ c.own s r, spot y.1 < spot x.1 →
    s.line < x.2.line

variable {c : Chunk} {V : Vocabulary} {R : Prop} {l : Block} {s : Stmt} {spot : ExprId → ℕ}
variable {r r' : ExprId} {b : Block} {x y : ExprId × Call}

/-! ## What is marked -/

theorem mem_written (h : c.Sound V R) (hl : c.HasList l) : x ∈ c.written l ↔ x ∈ c.found l :=
  (written_perm h hl).mem_iff

theorem call_mem_marks : x ∈ c.written l ↔ .call x ∈ c.marks l := by
  rw [written, List.mem_filterMap]
  constructor
  · rintro ⟨mark, hmark, hx⟩
    cases mark with
    | begins n => cases hx
    | call y =>
      obtain rfl := Option.some.inj hx
      exact hmark
  · exact fun hx => ⟨_, hx, rfl⟩

theorem mem_literal : x ∈ c.literal r ↔
    ∃ y ∈ c.arena.descendants r, ∃ b, c.arena.body? y = some b ∧ x ∈ c.written b := by
  rw [literal, Arena.bodies, List.mem_flatMap]
  refine exists_congr fun y => and_congr_right fun _ => ?_
  cases c.arena.body? y <;> simp

theorem line_of_mem_own (hx : x ∈ c.own s r) : x.2.line = s.line := by
  obtain ⟨y, -, hx⟩ := List.mem_filterMap.1 hx
  obtain ⟨text, -, rfl⟩ := Option.map_eq_some_iff.1 hx
  rfl

/-- The marks of a part of a statement. -/
def marksOf (c : Chunk) (s : Stmt) (part : Part) : List Mark := c.arena.partMarks c.marks s.line part

theorem own_marked (hx : x ∈ c.own s r) : .call x ∈ c.marksOf s (.expr r) := by
  obtain ⟨y, hy, hx⟩ := List.mem_filterMap.1 hx
  exact List.mem_flatMap.2 ⟨y, hy, List.mem_append_left _ (by simp [hx])⟩

theorem mem_marksOf_of_body {y : ExprId} {mark : Mark} (hy : y ∈ c.arena.descendants r)
    (hbody : c.arena.body? y = some b) (hmark : mark ∈ c.marks b) : mark ∈ c.marksOf s (.expr r) :=
  List.mem_flatMap.2 ⟨y, hy, List.mem_append_right _ (by simpa [hbody] using hmark)⟩

theorem marksOf_subset {part : Part} (hpart : part ∈ s.kind.parts) :
    c.marksOf s part ⊆ c.arena.markStep c.marks s := fun _ hmark =>
  List.mem_cons_of_mem _ (List.mem_flatMap.2 ⟨part, hpart, hmark⟩)

/-- A call is marked, and that a statement begins on its line. -/
def Both (marks : List Mark) (x : ExprId × Call) : Prop :=
  .call x ∈ marks ∧ .begins x.2.line ∈ marks

theorem Both.mono {marks marks' : List Mark} (h : Both marks x) (hsub : marks ⊆ marks') :
    Both marks' x :=
  ⟨hsub h.1, hsub h.2⟩

/-- What is found at a statement is marked there, if what is found in the
lists inside is marked in them. -/
theorem findStep_marked (hinside : ∀ b, c.arena.Inside s b → ∀ x ∈ c.found b, Both (c.marks b) x)
    (hx : x ∈ c.findStep s) : Both (c.arena.markStep c.marks s) x := by
  rcases List.mem_append.1 hx with hx | hx
  · obtain ⟨b, hb, hx⟩ := List.mem_flatMap.1 hx
    exact (hinside b (.inl hb) x hx).mono (marksOf_subset (StmtKind.list_mem_parts hb))
  · obtain ⟨r, hr, hx⟩ := List.mem_flatMap.1 hx
    have hsubset := marksOf_subset (c := c) (StmtKind.expr_mem_parts hr)
    rcases List.mem_append.1 hx with hx | hx
    · obtain ⟨y, hy, hx⟩ := List.mem_flatMap.1 hx
      cases hbody : c.arena.body? y with
      | none => simp [hbody] at hx
      | some b =>
        rw [hbody, Option.elim_some] at hx
        exact (hinside b (.inr ⟨r, hr, y, hy, hbody⟩) x hx).mono fun mark hmark =>
          hsubset (mem_marksOf_of_body hy hbody hmark)
    · exact ⟨hsubset (own_marked hx), line_of_mem_own hx ▸ List.mem_cons_self⟩

/-- **What is found is marked.** -/
theorem found_marked (h : c.Sound V R) (hl : c.HasList l) : ∀ x ∈ c.found l, Both (c.marks l) x := by
  refine list_induction (P := fun l => ∀ x ∈ c.found l, Both (c.marks l) x) h
    (fun l hl ih x hx => ?_) hl
  rw [found_eq h hl] at hx
  rw [marks_eq h hl]
  obtain ⟨s, hs, hx⟩ := List.mem_flatMap.1 hx
  exact (findStep_marked (ih s hs) hx).mono fun mark hmark => List.mem_flatMap.2 ⟨s, hs, hmark⟩

theorem written_marked (h : c.Sound V R) (hl : c.HasList l) (hx : x ∈ c.written l) :
    Both (c.marks l) x :=
  found_marked h hl x ((mem_written h hl).1 hx)

theorem literal_marked (h : c.Sound V R) (hl : c.HasList l) (hs : s ∈ l) (hr : r ∈ s.kind.roots)
    (hx : x ∈ c.literal r) : Both (c.marksOf s (.expr r)) x := by
  obtain ⟨y, hy, b, hbody, hx⟩ := mem_literal.1 hx
  exact (written_marked h (hl.literal hs hr hy hbody) hx).mono fun mark hmark =>
    mem_marksOf_of_body hy hbody hmark

/-! ## The order at a statement -/

/-- All marks of one part stand before those of another. -/
def PartBefore (c : Chunk) (spot : ExprId → ℕ) (s : Stmt) (part part' : Part) : Prop :=
  ∀ mark ∈ c.marksOf s part, ∀ mark' ∈ c.marksOf s part', mark.Before spot mark'

/-- All marks of one node stand before those of another. -/
def NodeBefore (c : Chunk) (spot : ExprId → ℕ) (s : Stmt) (y y' : ExprId) : Prop :=
  ∀ mark ∈ c.arena.nodeMarks c.marks s.line y, ∀ mark' ∈ c.arena.nodeMarks c.marks s.line y',
    mark.Before spot mark'

/-- The marks of a statement are in written order. -/
structure Spaced (c : Chunk) (spot : ExprId → ℕ) (s : Stmt) : Prop where
  begins : ∀ part ∈ s.kind.parts, ∀ n, .begins n ∈ c.marksOf s part → s.line ≤ n
  each : ∀ part ∈ s.kind.parts, (c.marksOf s part).Pairwise (Mark.Before spot)
  parts : s.kind.parts.Pairwise (c.PartBefore spot s)

theorem spaced_of_pairwise (h : (c.arena.markStep c.marks s).Pairwise (Mark.Before spot)) :
    c.Spaced spot s := by
  rw [Arena.markStep, List.pairwise_cons, List.pairwise_flatMap] at h
  exact ⟨fun part hpart n hn => h.1 _ (List.mem_flatMap.2 ⟨part, hpart, hn⟩), h.2.1, h.2.2⟩

namespace Spaced

variable (hm : c.Spaced spot s)
include hm

theorem roots : s.kind.roots.Pairwise fun r r' => c.PartBefore spot s (.expr r) (.expr r') :=
  List.pairwise_map.1 (hm.parts.sublist s.kind.woven.roots_sublist)

theorem lists : s.kind.blocks.Pairwise fun b b' => c.PartBefore spot s (.list b) (.list b') :=
  List.pairwise_map.1 (hm.parts.sublist s.kind.woven.blocks_sublist)

theorem nodes (hr : r ∈ s.kind.roots) : (c.arena.descendants r).Pairwise (c.NodeBefore spot s) := by
  have hpart := hm.each _ (StmtKind.expr_mem_parts hr)
  rw [marksOf, Arena.partMarks, List.pairwise_flatMap] at hpart
  exact hpart.2

/-- Of two parts one stands before the other. -/
theorem before_or_before {part part' : Part} (hpart : part ∈ s.kind.parts)
    (hpart' : part' ∈ s.kind.parts) (hne : part ≠ part') :
    c.PartBefore spot s part part' ∨ c.PartBefore spot s part' part :=
  either_of_pairwise hm.parts hpart hpart' hne

end Spaced

/-- Calls of one part stand before those of another, and on no later line if
both are in lists or literals. -/
theorem PartBefore.sorts {part part' : Part} (h : c.PartBefore spot s part part')
    (hx : Both (c.marksOf s part) x) (hy : Both (c.marksOf s part') y) : Sorts spot x y :=
  .of_le (h _ hx.2 _ hy.2) (h _ hx.1 _ hy.1)

theorem mem_bodies_found (h : c.Sound V R) (hl : c.HasList l) (hs : s ∈ l) (hr : r ∈ s.kind.roots) :
    x ∈ c.arena.bodies c.found r ↔ x ∈ c.literal r := by
  rw [mem_literal, Arena.bodies, List.mem_flatMap]
  refine exists_congr fun y => and_congr_right fun hy => ?_
  cases hbody : c.arena.body? y with
  | none => simp
  | some b => simp [mem_written h (hl.literal hs hr hy hbody)]

theorem mem_found_iff (h : c.Sound V R) (hl : c.HasList l) (hs : s ∈ l) :
    x ∈ s.kind.blocks.flatMap c.found ↔ x ∈ s.kind.blocks.flatMap c.written := by
  rw [List.mem_flatMap, List.mem_flatMap]
  exact exists_congr fun b => and_congr_right fun hb => (mem_written h (hl.nested hs hb)).symm

/-- **Where a walk finds calls so that sorting by line orders them**, the
statement is tidy. -/
theorem tidy_of_sorts (h : c.Sound V R) (hl : c.HasList l) (hs : s ∈ l) (hm : c.Spaced spot s)
    (hsorts : (c.findStep s).Pairwise (Sorts spot)) : c.Tidy spot s := by
  rw [findStep, List.pairwise_append, List.pairwise_flatMap, List.pairwise_flatMap] at hsorts
  obtain ⟨-, ⟨hroot, hroots⟩, hlists⟩ := hsorts
  have hown (r : ExprId) (hr : r ∈ s.kind.roots) {x y : ExprId × Call} (hx : x ∈ c.literal r)
      (hy : y ∈ c.own s r) : Sorts spot x y :=
    (List.pairwise_append.1 (hroot r hr)).2.2 x ((mem_bodies_found h hl hs hr).2 hx) y hy
  have hlist {x y : ExprId × Call} (hx : x ∈ s.kind.blocks.flatMap c.written)
      (hy : y ∈ s.kind.roots.flatMap fun r => c.literal r ++ c.own s r) : Sorts spot x y := by
    refine hlists x ((mem_found_iff h hl hs).2 hx) y ?_
    obtain ⟨r, hr, hy⟩ := List.mem_flatMap.1 hy
    refine List.mem_flatMap.2 ⟨r, hr, List.mem_append.2 ?_⟩
    exact (List.mem_append.1 hy).imp_left (mem_bodies_found h hl hs hr).2
  refine ⟨fun x hx y hy hlt => ?_, fun x hx y hy hlt => (hlist hx hy).line_lt hlt,
    fun r hr x hx y hy hlt => line_of_mem_own hy ▸ (hown r hr hx hy).line_lt hlt⟩
  obtain ⟨r', hr', hy⟩ := List.mem_flatMap.1 hy
  rw [← line_of_mem_own hy]
  rcases List.mem_append.1 hx with hx | hx
  · exact (hlist hx (List.mem_flatMap.2 ⟨r', hr', List.mem_append_right _ hy⟩)).line_le hlt
  obtain ⟨r, hr, hx⟩ := List.mem_flatMap.1 hx
  by_cases heq : r = r'
  · exact (hown r' hr' (heq ▸ hx) hy).line_le hlt
  -- a literal below another root is found before the call if its root stands before that
  let Found (r r' : ExprId) := ∀ x ∈ c.arena.bodies c.found r ++ c.own s r,
    ∀ y ∈ c.arena.bodies c.found r' ++ c.own s r', Sorts spot x y
  have hboth : s.kind.roots.Pairwise fun r r' =>
      Found r r' ∧ c.PartBefore spot s (.expr r) (.expr r') := hroots.and hm.roots
  rcases either_of_pairwise hboth hr hr' heq with ⟨hfound, -⟩ | ⟨-, hbefore⟩
  · exact (hfound x (List.mem_append_left _ ((mem_bodies_found h hl hs hr).2 hx)) y
      (List.mem_append_right _ hy)).line_le hlt
  · exact absurd (hbefore _ (own_marked hy) _ (literal_marked h hl hs hr hx).1) hlt.asymm

/-- A call of a statement and one in a literal below the same root do not
stand in one spot. -/
theorem Spaced.literal_or_own (hm : c.Spaced spot s) (hr : r ∈ s.kind.roots)
    (hx : x ∈ c.literal r) (hy : y ∈ c.own s r) : spot x.1 < spot y.1 ∨ spot y.1 < spot x.1 := by
  obtain ⟨z, hz, b, hbody, hx⟩ := mem_literal.1 hx
  obtain ⟨w, hw, hy⟩ := List.mem_filterMap.1 hy
  have hxmark : .call x ∈ c.arena.nodeMarks c.marks s.line z :=
    List.mem_append_right _ (by simpa [hbody] using call_mem_marks.1 hx)
  have hymark : .call y ∈ c.arena.nodeMarks c.marks s.line w := List.mem_append_left _ (by simp [hy])
  -- no literal is a call
  have hne : z ≠ w := by
    rintro rfl
    obtain ⟨func, hfunc, -⟩ := Arena.body?_eq_some.1 hbody
    simp [Arena.site?, hfunc, Call.specifier?] at hy
  exact (either_of_pairwise (hm.nodes hr) hz hw hne).imp (fun hbefore => hbefore _ hxmark _ hymark)
    fun hbefore => hbefore _ hymark _ hxmark

/-- The calls of a statement at and below one root are found as they are
written. -/
theorem Spaced.own_sorts (hm : c.Spaced spot s) (hr : r ∈ s.kind.roots) :
    (c.own s r).Pairwise (Sorts spot) := by
  have hpart := hm.each _ (StmtKind.expr_mem_parts hr)
  have hsublist : ((c.own s r).map Mark.call).Sublist (c.marksOf s (.expr r)) := by
    rw [own, List.filterMap_eq_flatMap_toList, List.map_flatMap]
    exact List.Sublist.flatMap_right _ fun y _ => List.sublist_append_left _ _
  refine (List.pairwise_map.1 (hpart.sublist hsublist)).imp_of_mem fun hx hy hlt => ?_
  exact .of_le (by rw [line_of_mem_own hx, line_of_mem_own hy]) hlt

/-- The calls in the literals below one root are found as they are written,
if those in each are. -/
theorem Spaced.literal_sorts (h : c.Sound V R) (hl : c.HasList l) (hs : s ∈ l)
    (hm : c.Spaced spot s) (hr : r ∈ s.kind.roots)
    (hinside : ∀ b, c.arena.Inside s b → (c.found b).Pairwise (Sorts spot)) :
    (c.arena.bodies c.found r).Pairwise (Sorts spot) := by
  have hbody {y : ExprId} (hy : y ∈ c.arena.descendants r) {x : ExprId × Call}
      (hx : x ∈ (c.arena.body? y).elim [] c.found) : Both (c.arena.nodeMarks c.marks s.line y) x := by
    cases hbody : c.arena.body? y with
    | none => simp [hbody] at hx
    | some b =>
      rw [hbody, Option.elim_some] at hx
      rw [Arena.nodeMarks, hbody]
      exact (found_marked h (hl.literal hs hr hy hbody) x hx).mono (List.subset_append_right _ _)
  rw [Arena.bodies, List.pairwise_flatMap]
  refine ⟨fun y hy => ?_, (hm.nodes hr).imp_of_mem fun hy hy' hbefore x hx x' hx' => ?_⟩
  · cases hbody : c.arena.body? y with
    | none => exact .nil
    | some b => exact hinside b (.inr ⟨r, hr, y, hy, hbody⟩)
  · exact .of_le (hbefore _ (hbody hy hx).2 _ (hbody hy' hx').2)
      (hbefore _ (hbody hy hx).1 _ (hbody hy' hx').1)

theorem Tidy.own_behind (htidy : c.Tidy spot s) (hr : r ∈ s.kind.roots) (hy : y ∈ c.own s r)
    (hx : x ∈ s.kind.blocks.flatMap c.written ++ s.kind.roots.flatMap c.literal)
    (hlt : spot x.1 < spot y.1) : Sorts spot x y := by
  refine .of_le ?_ hlt
  rw [line_of_mem_own hy]
  exact htidy.before x hx y (List.mem_flatMap.2 ⟨r, hr, hy⟩) hlt

/-- **At a tidy statement** a walk finds calls so that sorting by line orders
them, if it does in the lists inside. -/
theorem sorts_of_tidy (h : c.Sound V R) (hl : c.HasList l) (hs : s ∈ l) (hm : c.Spaced spot s)
    (htidy : c.Tidy spot s)
    (hinside : ∀ b, c.arena.Inside s b → (c.found b).Pairwise (Sorts spot)) :
    (c.findStep s).Pairwise (Sorts spot) := by
  have hliteral {r : ExprId} (hr : r ∈ s.kind.roots) {x : ExprId × Call}
      (hx : x ∈ c.arena.bodies c.found r) : x ∈ c.literal r := (mem_bodies_found h hl hs hr).1 hx
  rw [findStep, List.pairwise_append, List.pairwise_flatMap, List.pairwise_flatMap]
  refine ⟨⟨fun b hb => hinside b (.inl hb), ?_⟩, ⟨fun r hr => ?_, ?_⟩, fun x hx y hy => ?_⟩
  -- two lists of the statement
  · refine hm.lists.imp_of_mem fun {b b'} hb hb' hparts x hx y hy => ?_
    exact hparts.sorts (found_marked h (hl.nested hs hb) x hx)
      (found_marked h (hl.nested hs hb') y hy)
  -- one root: what is in its literals, then its own calls
  · refine List.pairwise_append.2 ⟨hm.literal_sorts h hl hs hr hinside, hm.own_sorts hr,
      fun x hx y hy => ?_⟩
    have hx := hliteral hr hx
    rcases hm.literal_or_own hr hx hy with hlt | hlt
    · exact htidy.own_behind hr hy (List.mem_append_right _ (List.mem_flatMap.2 ⟨r, hr, hx⟩)) hlt
    · exact .of_lt (line_of_mem_own hy ▸ htidy.literal r hr x hx y hy hlt) hlt
  -- two roots: either call may be the root's own or in a literal of it
  · refine hm.roots.imp_of_mem fun {r r'} hr hr' hparts x hx y hy => ?_
    rcases List.mem_append.1 hx with hx | hx <;> rcases List.mem_append.1 hy with hy | hy
    · exact hparts.sorts (literal_marked h hl hs hr (hliteral hr hx))
        (literal_marked h hl hs hr' (hliteral hr' hy))
    · have hx := hliteral hr hx
      exact htidy.own_behind hr' hy (List.mem_append_right _ (List.mem_flatMap.2 ⟨r, hr, hx⟩))
        (hparts _ (literal_marked h hl hs hr hx).1 _ (own_marked hy))
    · have hy := literal_marked h hl hs hr' (hliteral hr' hy)
      refine .of_le ?_ (hparts _ (own_marked hx) _ hy.1)
      rw [line_of_mem_own hx]
      exact hm.begins _ (StmtKind.expr_mem_parts hr') _ hy.2
    · refine .of_le ?_ (hparts _ (own_marked hx) _ (own_marked hy))
      rw [line_of_mem_own hx, line_of_mem_own hy]
  -- a list and a root, which may come in either order
  · rw [mem_found_iff h hl hs] at hx
    obtain ⟨r, hr, hy⟩ := List.mem_flatMap.1 hy
    obtain ⟨b, hb, hxb⟩ := List.mem_flatMap.1 hx
    have hxmarked := written_marked h (hl.nested hs hb) hxb
    have hy : y ∈ c.literal r ++ c.own s r :=
      List.mem_append.2 ((List.mem_append.1 hy).imp_left (hliteral hr))
    have hymark : .call y ∈ c.marksOf s (.expr r) := (List.mem_append.1 hy).elim
      (fun hy => (literal_marked h hl hs hr hy).1) own_marked
    rcases hm.before_or_before (StmtKind.list_mem_parts hb) (StmtKind.expr_mem_parts hr) (by simp)
      with hparts | hparts
    · rcases List.mem_append.1 hy with hy | hy
      · exact hparts.sorts hxmarked (literal_marked h hl hs hr hy)
      · exact htidy.own_behind hr hy (List.mem_append_left _ hx) (hparts _ hxmarked.1 _ hymark)
    · have hlt := hparts _ hymark _ hxmarked.1
      exact .of_lt (htidy.list x hx y (List.mem_flatMap.2 ⟨r, hr, hy⟩) hlt) hlt

/-! ## The order of a chunk -/

/-- What lists hold inside a statement is found in the order of the
statement. -/
theorem sorts_inside (hsorts : (c.findStep s).Pairwise (Sorts spot)) (hb : c.arena.Inside s b) :
    (c.found b).Pairwise (Sorts spot) := by
  rw [findStep, List.pairwise_append, List.pairwise_flatMap, List.pairwise_flatMap] at hsorts
  rcases hb with hb | ⟨r, hr, y, hy, hbody⟩
  · exact hsorts.1.1 b hb
  · have hbodies := (List.pairwise_append.1 (hsorts.2.1.1 r hr)).1
    rw [Arena.bodies, List.pairwise_flatMap] at hbodies
    simpa [hbody] using hbodies.1 y hy

/-- The marks of lists inside a statement are in order if those of the
statement are. -/
theorem marks_inside (hmarks : (c.arena.markStep c.marks s).Pairwise (Mark.Before spot))
    (hb : c.arena.Inside s b) : (c.marks b).Pairwise (Mark.Before spot) := by
  have hm := spaced_of_pairwise hmarks
  rcases hb with hb | ⟨r, hr, y, hy, hbody⟩
  · exact hm.each _ (StmtKind.list_mem_parts hb)
  · have hpart := hm.each _ (StmtKind.expr_mem_parts hr)
    rw [marksOf, Arena.partMarks, List.pairwise_flatMap] at hpart
    have hnode := hpart.1 y hy
    rw [Arena.nodeMarks, hbody] at hnode
    exact (List.pairwise_append.1 hnode).2.1

/-- What a list keeps in order at each statement, it keeps in all lists of a
chunk if it does in the body. -/
theorem pairwise_lists {α : Type} {S : α → α → Prop} {f : Block → List α} {g : Stmt → List α}
    (hf : ∀ l, c.HasList l → f l = l.flatMap g)
    (hinside : ∀ s b, (g s).Pairwise S → c.arena.Inside s b → (f b).Pairwise S)
    (hbody : (f c.body).Pairwise S) (hl : c.HasList l) : (f l).Pairwise S := by
  have hstep {l : Block} (hl : c.HasList l) (h : (f l).Pairwise S) {s : Stmt} (hs : s ∈ l) :
      (g s).Pairwise S := by
    rw [hf l hl, List.pairwise_flatMap] at h
    exact h.1 s hs
  induction hl with
  | body => exact hbody
  | nested hl hs hb ih => exact hinside _ _ (hstep hl ih hs) (.inl hb)
  | literal hl hs hx hy hb ih => exact hinside _ _ (hstep hl ih hs) (.inr ⟨_, hx, _, hy, hb⟩)

/-- **Sorting by line orders what a walk finds** if and only if all statements
are tidy. -/
theorem sorts_iff_tidy (h : c.Sound V R) (hmarks : (c.marks c.body).Pairwise (Mark.Before spot)) :
    (c.found c.body).Pairwise (Sorts spot) ↔ ∀ l, c.HasList l → ∀ s ∈ l, c.Tidy spot s := by
  have hall {l : Block} (hl : c.HasList l) : l.Pairwise (fun s s' =>
      ∀ mark ∈ c.arena.markStep c.marks s, ∀ mark' ∈ c.arena.markStep c.marks s',
        mark.Before spot mark') ∧ ∀ s ∈ l, c.Spaced spot s := by
    have hlist := pairwise_lists (fun l hl => marks_eq h hl) (fun _ _ => marks_inside) hmarks hl
    rw [marks_eq h hl, List.pairwise_flatMap] at hlist
    exact ⟨hlist.2, fun s hs => spaced_of_pairwise (hlist.1 s hs)⟩
  constructor
  · intro hsorts l hl s hs
    have hlist := pairwise_lists (fun l hl => found_eq h hl) (fun _ _ => sorts_inside) hsorts hl
    rw [found_eq h hl, List.pairwise_flatMap] at hlist
    exact tidy_of_sorts h hl hs ((hall hl).2 s hs) (hlist.1 s hs)
  · intro htidy
    refine list_induction (P := fun l => (c.found l).Pairwise (Sorts spot)) h (fun l hl ih => ?_) .body
    have hmarked {s : Stmt} (hs : s ∈ l) {x : ExprId × Call} (hx : x ∈ c.findStep s) :=
      findStep_marked (fun b hb => found_marked h (hl.into hs hb)) hx
    rw [found_eq h hl, List.pairwise_flatMap]
    refine ⟨fun s hs => sorts_of_tidy h hl hs ((hall hl).2 s hs) (htidy l hl s hs) (ih s hs),
      (hall hl).1.imp_of_mem fun hs hs' hbefore x hx y hy => ?_⟩
    exact .of_le (hbefore _ (hmarked hs hx).2 _ (hmarked hs' hy).2)
      (hbefore _ (hmarked hs hx).1 _ (hmarked hs' hy).1)

/-- Where nothing is shared a tour finds what a walk finds list by list. -/
theorem Unshared.sites_eq (h : c.Sound V R) (hunshared : c.Unshared) : c.sites = c.found c.body := by
  have hvisit (v : Visit) : Visit.sites c.arena v = v.root?.toList.flatMap fun p =>
      (c.arena.descendants p.1).filterMap (c.arena.site? p.2.line) := by
    cases v with
    | statement s behind => rfl
    | root x s => exact (List.flatMap_singleton _ _).symm
  rw [found, ← hunshared.tour_eq h, sites, List.filterMap_eq_flatMap_toList, List.flatMap_assoc]
  exact List.flatMap_congr fun v _ => hvisit v

end Chunk

/-! ## Parsed chunks -/

namespace Require.Call

variable {source : String} {tokens : List Token} {c : Chunk}

/-- What is reported is what a tour comes by, sorted by line. -/
theorem ofChunk_eq_sort (hparse : parse tokens = .ok c) :
    ofChunk c = (c.sites.map Prod.snd).mergeSort fun a b => a.line ≤ b.line :=
  (ofChunk_eq (parse_chunk_sound hparse)).trans (List.map_mergeSort fun _ _ _ _ => rfl)

/-- **The order of reported calls.** In a parsed chunk each call of `require`
has a spot among the tokens that carry meaning, where its name stands, and
the calls are written by their spots. All of them are reported; and they are
reported by their spots if and only if every statement of the chunk is
tidy. -/
theorem ofChunk_in_order (htokens : tokenize source = .ok tokens) (hparse : parse tokens = .ok c) :
    ∃ spot : ExprId → ℕ,
      (∀ i text, c.Requires i text → Spelled (significant tokens) (spot i) text) ∧
      (c.written c.body).Pairwise (fun x y => spot x.1 < spot y.1) ∧
      ∃ calls : List (ExprId × Call), ofChunk c = calls.map Prod.snd ∧
        calls.Perm (c.written c.body) ∧
        (∀ i text, (∃ line, (i, ⟨text, line⟩) ∈ calls) ↔ c.Requires i text) ∧
        (calls.Pairwise (fun x y => spot x.1 < spot y.1) ↔
          ∀ l, c.HasList l → ∀ s ∈ l, c.Tidy spot s) := by
  have hsound := parse_chunk_sound hparse
  have hunshared := parse_unshared hparse
  have hsites := hunshared.sites_eq hsound
  have hwritten := Chunk.written_perm hsound (.body (c := c))
  have hnodup := sites_nodup hsound hunshared
  -- the marks of the body stand among the tokens
  obtain ⟨q, hlaid⟩ := parse_laid hparse
  have hmarked : Marked (significant tokens) (c.marks c.body) 0 q := by
    have hall := hlaid.marked (parse_owned hparse).ranked (Pass.depth c) 0
    rwa [List.flatMap_singleton] at hall
  have hlines : (significant tokens).Pairwise fun t u => t.line ≤ u.line :=
    (tokenize_lines htokens).filter _
  obtain ⟨spot, hspelled, -, hbefore⟩ := hmarked.exists_spot hlines
    (((hwritten.map Prod.fst).nodup_iff).2 (hsites ▸ hnodup))
  refine ⟨spot, fun i text hi => ?_, ?_, _, ofChunk_eq hsound, ?_, fun i text => ?_, ?_⟩
  · obtain ⟨line, hmem⟩ := (mem_sites hsound).2 hi
    rw [hsites, ← hwritten.mem_iff, Chunk.call_mem_marks] at hmem
    exact (hspelled _ hmem).2
  · refine List.pairwise_filterMap.2 (hbefore.imp fun {z w} hzw x hx y hy => ?_)
    cases z <;> cases hx
    cases w <;> cases hy
    exact hzw
  · exact (c.sites.mergeSort_perm _).trans (hsites ▸ hwritten.symm)
  · rw [← mem_sites hsound]
    exact exists_congr fun line => List.mem_mergeSort
  · rw [← Chunk.sorts_iff_tidy hsound hbefore, ← hsites, pairwise_mergeSort_iff (fun x y z hxy hyz =>
      by simpa using (of_decide_eq_true hxy).trans (of_decide_eq_true hyz))
      (fun x y => by simpa using le_total x.2.line y.2.line) (hnodup.of_map _)]
    simp only [decide_eq_true_eq]
    rfl

/-- An argument that is a literal is found before the call that stands before
it, and is reported behind it, since it is on a later line. -/
theorem ofChunk_in_order_lines : ∃ tokens c,
    tokenize "f(require 'a', function()\nreturn require 'b'\nend)" = .ok tokens ∧
      parse tokens = .ok c ∧ (ofChunk c).map specifier = ["a", "b"] ∧
      c.sites.map (fun site => site.2.specifier) = ["b", "a"] ∧
      ∃ spot : ExprId → ℕ,
        (∀ i text, c.Requires i text → Spelled (significant tokens) (spot i) text) ∧
        ∀ l, c.HasList l → ∀ s ∈ l, c.Tidy spot s := by
  obtain ⟨tokens, c, htokens, hparse, hsites, hwritten⟩ := exists_parsed (P := fun _ c =>
      c.sites.map Prod.snd = [⟨"b", 2⟩, ⟨"a", 1⟩] ∧
        (c.written c.body).map Prod.snd = [⟨"a", 1⟩, ⟨"b", 2⟩])
    "f(require 'a', function()\nreturn require 'b'\nend)" (by decide +kernel)
  obtain ⟨spot, hspelled, hspots, calls, hcalls, hperm, -, htidy⟩ := ofChunk_in_order htokens hparse
  have hsorted : ofChunk c = [⟨"a", 1⟩, ⟨"b", 2⟩] := by
    rw [ofChunk_eq_sort hparse, hsites]
    simp [List.mergeSort]
  refine ⟨tokens, c, htokens, hparse, by rw [hsorted]; rfl, ?_, spot, hspelled, htidy.1 ?_⟩
  · have htexts := congrArg (List.map specifier) hsites
    simpa [List.map_map, Function.comp_def] using htexts
  -- two calls with these texts are reported as they are written
  · have hcalls := hcalls.symm.trans hsorted
    obtain ⟨x, y, hw, hx, hy⟩ : ∃ x y, c.written c.body = [x, y] ∧ x.2 = ⟨"a", 1⟩ ∧ y.2 = ⟨"b", 2⟩ := by
      simpa [List.map_eq_cons_iff] using hwritten
    obtain ⟨u, v, rfl, hu, hv⟩ : ∃ u v, calls = [u, v] ∧ u.2 = ⟨"a", 1⟩ ∧ v.2 = ⟨"b", 2⟩ := by
      simpa [List.map_eq_cons_iff] using hcalls
    rw [hw] at hspots hperm
    have hmem {z : ExprId × Call} (hz : z ∈ [u, v]) : z = x ∨ z = y := by simpa using hperm.subset hz
    have hux : u = x := (hmem (by simp)).resolve_right fun heq => by simp [← heq, hu] at hy
    have hvy : v = y := (hmem (by simp)).resolve_left fun heq => by simp [← heq, hv] at hx
    rwa [hux, hvy]

/-- A text right behind the name is the text of the call. -/
theorem spelled_next {k : ℕ} {text : String} {bytes : List UInt8} (h : Spelled tokens k text)
    (hnext : kindAt tokens (k + 1) = some (.string bytes)) : bytes = Utf8.encode text := by
  obtain ⟨-, j, hj, hparens, htext⟩ := h
  rcases Nat.eq_or_lt_of_le hj with rfl | hj
  · simpa [hnext] using htext
  · rcases hparens (k + 1) le_rfl hj with hparen | hparen <;> simp [hnext] at hparen

/-- An argument that is a literal is found before the call that stands before
it on its line, and is reported before it. The call of `"b"` is behind that
of `"a"`, so no spots that go up spell what is reported. -/
theorem ofChunk_out_of_order : ∃ tokens c,
    tokenize "f(require \"a\", function() return require \"b\" end)" = .ok tokens ∧
      parse tokens = .ok c ∧ (ofChunk c).map specifier = ["b", "a"] ∧
      ¬ ∃ spots : List ℕ, spots.Pairwise (· < ·) ∧
        List.Forall₂ (fun k call => Spelled (significant tokens) k call.specifier) spots (ofChunk c) := by
  obtain ⟨tokens, c, htokens, hparse, hsites, hnames, ha, hb⟩ := exists_parsed (P := fun tokens c =>
      c.sites.map Prod.snd = [⟨"b", 1⟩, ⟨"a", 1⟩] ∧
        ((List.range (significant tokens).length).filter fun k =>
          kindAt (significant tokens) k == some (.name "require")) = [2, 9] ∧
        kindAt (significant tokens) 3 = some (.string (Utf8.encode "a")) ∧
        kindAt (significant tokens) 10 = some (.string (Utf8.encode "b")))
    "f(require \"a\", function() return require \"b\" end)" (by decide +kernel)
  -- both calls are on one line, so sorting leaves them
  have hsorted : ofChunk c = [⟨"b", 1⟩, ⟨"a", 1⟩] := by
    rw [ofChunk_eq_sort hparse, hsites]
    exact List.mergeSort_of_pairwise (by simp)
  refine ⟨tokens, c, htokens, hparse, by rw [hsorted]; rfl, ?_⟩
  rintro ⟨spots, hascend, hspelled⟩
  rw [hsorted] at hspelled
  -- the name `require` stands at two places only
  have hname {k : ℕ} {text : String} (h : Spelled (significant tokens) k text) : k = 2 ∨ k = 9 := by
    have hmem : k ∈ (List.range (significant tokens).length).filter fun k =>
        kindAt (significant tokens) k == some (.name "require") := by
      refine List.mem_filter.2 ⟨List.mem_range.2 ?_, by simp [h.1]⟩
      by_contra hk
      have hkind := h.1
      rw [kindAt, List.getElem?_eq_none (not_lt.1 hk)] at hkind
      cases hkind
    simpa [hnames] using hmem
  obtain ⟨k, hk, m, hm, rfl⟩ : ∃ k, Spelled (significant tokens) k "b" ∧
      ∃ m, Spelled (significant tokens) m "a" ∧ spots = [k, m] := by
    simpa [List.forall₂_cons_right_iff] using hspelled
  have hkm : k < m := by simpa using hascend
  rcases hname hk with rfl | rfl
  -- at the first of them `a` is required, so `b` is not
  · exact absurd (spelled_next hk ha) (by decide)
  · rcases hname hm with rfl | rfl <;> omega

end Require.Call

end LuaSugar
