import Mathlib
import LuaSugar.Proofs.Pass.Turned
/-!
# The order of a walk

In which order a walk comes by the roots and the statements of a chunk is
told here of the chunk alone, as if no callback edited anything: a list of
**visits**, and beside it the function literals whose bodies were entered.
The nested lists of a statement come first, then its roots in order, each
behind the bodies of the literals below it that were not entered before,
and last the statement.

A tour goes as deep as a walk may, and that is deep enough: of a chunk that
is sound it has a visit for each root and for each statement of every list,
and no others (`Chunk.mem_tour`).
-/

namespace LuaSugar

/-- What a walk comes by. -/
inductive Visit
  /-- A root of a statement. -/
  | root (x : ExprId) (owner : Stmt)
  /-- A statement, and what stands behind it in its list. -/
  | statement (s : Stmt) (behind : Block)

/-- How far a tour has come. -/
structure Tour where
  visits : List Visit
  /-- Function literals whose bodies were entered, the latest first. -/
  seen : List ExprId

namespace Tour

def start : Tour := ⟨[], []⟩

def visit (t : Tour) (v : Visit) : Tour := { t with visits := t.visits ++ [v] }

def enter (t : Tour) (y : ExprId) : Tour := { t with seen := y :: t.seen }

end Tour

namespace Arena

section Steps

variable (a : Arena) (enter : Block → Tour → Tour)

/-- Go through the body of a function literal unless it was entered before. -/
def tourLiteral (t : Tour) (y : ExprId) : Tour :=
  match a.body? y with
  | some body => if y ∈ t.seen then t else enter body (t.enter y)
  | none => t

/-- Come by a root, behind the literals below it. -/
def tourRoot (owner : Stmt) (t : Tour) (x : ExprId) : Tour :=
  ((a.descendants x).foldl (a.tourLiteral enter) t).visit (.root x owner)

/-- What comes before a statement: the lists nested in it, and its roots. -/
def tourInner (s : Stmt) (t : Tour) : Tour :=
  s.kind.roots.foldl (a.tourRoot enter s) (s.kind.blocks.foldl (fun t b => enter b t) t)

/-- Go through the statements of a list. -/
def tourList : Block → Tour → Tour
  | [], t => t
  | s :: rest, t => tourList rest ((a.tourInner enter s t).visit (.statement s rest))

end Steps

/-- Go through a list and what is nested in it, at most so many lists deep. -/
def tour (a : Arena) : ℕ → Block → Tour → Tour
  | 0, _, t => t
  | depth + 1, l, t => a.tourList (a.tour depth) l t

end Arena

/-- The visits of a chunk in the order in which a walk comes by them. -/
def Chunk.tour (c : Chunk) : List Visit := (c.arena.tour (Pass.depth c) c.body .start).visits

/-- The roots and statements of the lists of a chunk. -/
def Chunk.HasVisit (c : Chunk) : Visit → Prop
  | .root x s => ∃ l, c.HasList l ∧ s ∈ l ∧ x ∈ s.kind.roots
  | .statement s behind => ∃ before, c.HasList (before ++ s :: behind)

/-! ## What every step keeps -/

namespace Arena

variable {a : Arena} {enter : Block → Tour → Tour} {P : Tour → Prop} {T : Block → Prop}
variable {s : Stmt} {l : Block} {t : Tour}

/-- What the steps of a tour keep, on lists that satisfy `T`. -/
structure TourKeeps (a : Arena) (T : Block → Prop) (P : Tour → Prop) : Prop where
  nested : ∀ {l s b}, T l → s ∈ l → b ∈ s.kind.blocks → T b
  literal : ∀ {l s x y b}, T l → s ∈ l → x ∈ s.kind.roots → y ∈ a.descendants x →
    a.body? y = some b → T b
  root : ∀ {l s x t}, T l → s ∈ l → x ∈ s.kind.roots → P t → P (t.visit (.root x s))
  statement : ∀ {before s behind t}, T (before ++ s :: behind) → P t →
    P (t.visit (.statement s behind))
  enter : ∀ {l s x y b t}, T l → s ∈ l → x ∈ s.kind.roots → y ∈ a.descendants x →
    a.body? y = some b → y ∉ t.seen → P t → P (t.enter y)

namespace TourKeeps

variable (h : a.TourKeeps T P) (he : ∀ {b t}, T b → P t → P (enter b t))
include h he

/-- Entering a literal keeps what every list does. -/
theorem tourLiteral {x y : ExprId} (hl : T l) (hs : s ∈ l) (hx : x ∈ s.kind.roots)
    (hy : y ∈ a.descendants x) (ht : P t) : P (a.tourLiteral enter t y) := by
  unfold Arena.tourLiteral
  cases hbody : a.body? y with
  | none => exact ht
  | some body =>
    by_cases hseen : y ∈ t.seen
    · simpa only [hseen, if_true] using ht
    · simp only [hseen, if_false]
      exact he (h.literal hl hs hx hy hbody) (h.enter hl hs hx hy hbody hseen ht)

/-- So does a statement with its expressions and its lists. -/
theorem tourInner (hl : T l) (hs : s ∈ l) (ht : P t) : P (a.tourInner enter s t) := by
  refine List.foldlRecOn _ _ ?_ fun t ht x hx => ?_
  · exact List.foldlRecOn _ _ ht fun t ht b hb => he (h.nested hl hs hb) ht
  · refine h.root hl hs hx (List.foldlRecOn _ _ ht fun t ht y hy => ?_)
    exact h.tourLiteral he hl hs hx hy ht

/-- **A list keeps it**, each statement behind those before. -/
theorem tourList : ∀ (before l : Block) {t : Tour}, T (before ++ l) → P t →
    P (a.tourList enter l t)
  | _, [], _, _, ht => ht
  | before, s :: rest, t, hl, ht => by
    have hs : s ∈ before ++ s :: rest := by simp
    refine tourList (before ++ [s]) rest (by rwa [List.append_assoc]) ?_
    exact h.statement hl (h.tourInner he hl hs ht)

omit he in
/-- **What every step keeps, a tour keeps.** -/
theorem tour (d : ℕ) {l : Block} {t : Tour} (hl : T l) (ht : P t) : P (a.tour d l t) := by
  induction d generalizing l t with
  | zero => exact ht
  | succ d ih => exact h.tourList (fun hb hu => ih hb hu) [] l hl ht

end TourKeeps

end Arena

/-! ## Tours grow -/

namespace Tour

/-- Nothing is taken back. -/
structure Before (t t' : Tour) : Prop where
  visits : t.visits <+: t'.visits
  seen : t.seen ⊆ t'.seen

instance : Preorder Tour where
  le := Before
  le_refl t := ⟨List.prefix_rfl, List.Subset.refl _⟩
  le_trans _ _ _ h h' := ⟨h.visits.trans h'.visits, List.Subset.trans h.seen h'.seen⟩

variable {t t' : Tour}

/-- A visit only adds to a tour. -/
theorem le_visit (t : Tour) (v : Visit) : t ≤ t.visit v :=
  ⟨List.prefix_append _ _, List.Subset.refl _⟩

/-- So does entering a literal. -/
theorem le_enter (t : Tour) (y : ExprId) : t ≤ t.enter y :=
  ⟨List.prefix_rfl, List.subset_cons_self _ _⟩

end Tour

namespace Arena

variable {a : Arena} {enter : Block → Tour → Tour} {s : Stmt} {l : Block} {t t₀ : Tour}

/-- Being behind a tour is kept by all its steps. -/
theorem tourKeeps_le (a : Arena) (t₀ : Tour) : a.TourKeeps (fun _ => True) (t₀ ≤ ·) :=
  ⟨fun _ _ _ => trivial, fun _ _ _ _ _ => trivial, fun _ _ _ h => h.trans (Tour.le_visit _ _),
    fun _ h => h.trans (Tour.le_visit _ _), fun _ _ _ _ _ _ h => h.trans (Tour.le_enter _ _)⟩

/-- **A tour only grows.** -/
theorem le_tour (a : Arena) (d : ℕ) (l : Block) (t : Tour) : t ≤ a.tour d l t :=
  (a.tourKeeps_le t).tour d trivial le_rfl

section Grows

variable (he : ∀ b t, t ≤ enter b t)
include he

theorem le_tourLiteral (t : Tour) (y : ExprId) : t ≤ a.tourLiteral enter t y := by
  unfold tourLiteral
  split
  · split
    · exact le_rfl
    · exact (Tour.le_enter t y).trans (he _ _)
  · exact le_rfl

theorem le_foldl_tourLiteral (t : Tour) (l : List ExprId) :
    t ≤ l.foldl (a.tourLiteral enter) t :=
  List.foldlRecOn _ _ le_rfl fun _ ht _ _ => ht.trans (le_tourLiteral he _ _)

theorem le_tourRoot (t : Tour) (x : ExprId) : t ≤ a.tourRoot enter s t x :=
  (le_foldl_tourLiteral he t _).trans (Tour.le_visit _ _)

theorem le_foldl_enter (t : Tour) (bs : List Block) : t ≤ bs.foldl (fun t b => enter b t) t :=
  List.foldlRecOn _ _ le_rfl fun _ ht _ _ => ht.trans (he _ _)

theorem le_foldl_tourRoot (t : Tour) (xs : List ExprId) :
    t ≤ xs.foldl (a.tourRoot enter s) t :=
  List.foldlRecOn _ _ le_rfl fun _ ht _ _ => ht.trans (le_tourRoot he _ _)

theorem le_tourList (l : Block) (t : Tour) : t ≤ a.tourList enter l t :=
  (a.tourKeeps_le t).tourList (fun _ ht => ht.trans (he _ _)) [] l trivial le_rfl

/-- A literal that was come to is seen from there on. -/
theorem mem_seen_tourLiteral (t : Tour) {y : ExprId} (hbody : a.body? y ≠ none) :
    y ∈ (a.tourLiteral enter t y).seen := by
  obtain ⟨body, hbody⟩ := Option.ne_none_iff_exists'.1 hbody
  rw [tourLiteral, hbody]
  by_cases hseen : y ∈ t.seen
  · simp only [hseen, if_true]
  · simp only [hseen, if_false]
    exact (he body (t.enter y)).seen List.mem_cons_self

/-- Literals below a root have been entered when the tour comes by it. -/
theorem mem_seen_tourRoot (t : Tour) {x y : ExprId} (hy : y ∈ a.descendants x)
    (hbody : a.body? y ≠ none) : y ∈ (a.tourRoot enter s t x).seen := by
  obtain ⟨l₁, l₂, hl⟩ := List.append_of_mem hy
  rw [tourRoot, hl, List.foldl_append, List.foldl_cons]
  exact (le_foldl_tourLiteral he _ l₂).seen (mem_seen_tourLiteral he _ hbody)

/-- What has been visited when the tour comes by a statement. -/
theorem mem_tourInner (t : Tour) {x : ExprId} (hx : x ∈ s.kind.roots) :
    .root x s ∈ (a.tourInner enter s t).visits ∧
      ∀ y ∈ a.descendants x, a.body? y ≠ none → y ∈ (a.tourInner enter s t).seen := by
  obtain ⟨l₁, l₂, hl⟩ := List.append_of_mem hx
  rw [tourInner, hl, List.foldl_append, List.foldl_cons]
  have hle := le_foldl_tourRoot (a := a) (s := s) he
    (a.tourRoot enter s (l₁.foldl (a.tourRoot enter s) (s.kind.blocks.foldl (fun t b => enter b t) t)) x) l₂
  exact ⟨hle.visits.subset (List.mem_append_right _ (List.mem_singleton_self _)),
    fun y hy hbody => hle.seen (mem_seen_tourRoot he _ hy hbody)⟩

end Grows

end Arena

/-! ## What a tour comes by -/

namespace Chunk

variable {c : Chunk}

/-- A tour comes by nothing but roots and statements of the chunk. -/
theorem hasVisit_of_mem {v : Visit} (hv : v ∈ c.tour) : c.HasVisit v := by
  have hkeeps : c.arena.TourKeeps c.HasList fun t => ∀ v ∈ t.visits, c.HasVisit v := by
    have hvisit {t : Tour} {v : Visit} (ht : ∀ v ∈ t.visits, c.HasVisit v) (hv : c.HasVisit v) :
        ∀ u ∈ (t.visit v).visits, c.HasVisit u := by
      intro u hu
      rcases List.mem_append.1 hu with hu | hu
      · exact ht u hu
      · rwa [List.mem_singleton.1 hu]
    exact ⟨.nested, .literal, fun hl hs hx ht => hvisit ht ⟨_, hl, hs, hx⟩,
      fun hl ht => hvisit ht ⟨_, hl⟩, fun _ _ _ _ _ _ ht => ht⟩
  exact hkeeps.tour _ .body (by simp [Tour.start]) v hv

end Chunk

namespace Tour

/-- A list that the tour has been through, with the lists nested in it and
the literals below its roots. -/
inductive Covers (a : Arena) (t : Tour) : Block → Prop
  | nil : Covers a t []
  | cons {s rest} : .statement s rest ∈ t.visits → (∀ b ∈ s.kind.blocks, Covers a t b) →
      (∀ x ∈ s.kind.roots, .root x s ∈ t.visits ∧
        ∀ y ∈ a.descendants x, a.body? y ≠ none → y ∈ t.seen) →
      Covers a t rest → Covers a t (s :: rest)

variable {a : Arena} {t t' t'' : Tour} {l : Block}

/-- What is covered stays covered as a tour grows. -/
theorem Covers.mono (h : t ≤ t') (hl : t.Covers a l) : t'.Covers a l := by
  induction hl with
  | nil => exact .nil
  | cons hs _ hroots _ ihblocks ih =>
    exact .cons (h.visits.subset hs) ihblocks (fun x hx => ⟨h.visits.subset (hroots x hx).1,
      fun y hy hbody => h.seen ((hroots x hx).2 y hy hbody)⟩) ih

/-- The parts of a covered list. -/
theorem Covers.split (hl : t.Covers a l) : ∀ {before s behind}, l = before ++ s :: behind →
    .statement s behind ∈ t.visits ∧ (∀ b ∈ s.kind.blocks, t.Covers a b) ∧
      ∀ x ∈ s.kind.roots, .root x s ∈ t.visits ∧
        ∀ y ∈ a.descendants x, a.body? y ≠ none → y ∈ t.seen := by
  induction hl with
  | nil =>
    intro before s behind hl
    simp at hl
  | cons hs hblocks hroots _ _ ih =>
    intro before s behind hl
    cases before with
    | nil =>
      obtain ⟨rfl, rfl⟩ := List.cons.inj hl
      exact ⟨hs, hblocks, hroots⟩
    | cons u before =>
      obtain ⟨-, rfl⟩ := List.cons.inj hl
      exact ih rfl

/-- The bodies that were entered on the way from one tour to another are
covered. -/
structure Sees (a : Arena) (t t' : Tour) : Prop where
  le : t ≤ t'
  covers : ∀ y ∈ t'.seen, y ∈ t.seen ∨ ∃ body, a.body? y = some body ∧ t'.Covers a body

/-- What is seen at the start needs no covering. -/
theorem Sees.refl (a : Arena) (t : Tour) : Sees a t t := ⟨le_rfl, fun _ hy => .inl hy⟩

/-- What is seen by two steps one after the other is covered. -/
theorem Sees.trans (h : Sees a t t') (h' : Sees a t' t'') : Sees a t t'' := by
  refine ⟨h.le.trans h'.le, fun y hy => ?_⟩
  rcases h'.covers y hy with hy | hbody
  · rcases h.covers y hy with hy | ⟨body, hbody, hcovers⟩
    · exact .inl hy
    · exact .inr ⟨body, hbody, hcovers.mono h'.le⟩
  · exact .inr hbody

/-- A visit sees no literal. -/
theorem Sees.visit (a : Arena) (t : Tour) (v : Visit) : Sees a t (t.visit v) :=
  ⟨le_visit t v, fun _ hy => .inl hy⟩

end Tour

namespace Tour

/-- Steps over a list, each of which covers what it sees. -/
theorem Sees.foldl {a : Arena} {α : Type} {f : Tour → α → Tour} {l : List α}
    (h : ∀ t, ∀ v ∈ l, Sees a t (f t v)) (t : Tour) : Sees a t (l.foldl f t) :=
  List.foldlRecOn l f (.refl a t) fun _ ht v hv => ht.trans (h _ v hv)

end Tour

namespace Arena

open Progress Tour

variable {c : Chunk} {ρ : ExprId → ℚ} {enter : Block → Tour → Tour} {d : ℕ}

/-- Tours of lists cover those that they are deep enough for. -/
structure TourCovers (c : Chunk) (ρ : ExprId → ℚ) (enter : Block → Tour → Tour) (d : ℕ) :
    Prop where
  grows : ∀ b t, t ≤ enter b t
  enter : ∀ b t, (∀ s ∈ b, (start c ρ).Todo d s) →
    (enter b t).Covers c.arena b ∧ Sees c.arena t (enter b t)

namespace TourCovers

variable (hr : c.arena.Ranked ρ) (he : TourCovers c ρ enter d)
include hr he

/-- A literal is covered when it is seen, since its list is toured there and then. -/
theorem tourLiteral (t : Tour) {y : ExprId} (hy : (start c ρ).Near d y) :
    Sees c.arena t (c.arena.tourLiteral enter t y) := by
  unfold Arena.tourLiteral
  cases hbody : c.arena.body? y with
  | none => exact .refl _ _
  | some body =>
    by_cases hseen : y ∈ t.seen
    · simpa only [hseen, if_true] using Sees.refl _ _
    · simp only [hseen, if_false]
      have hgood : (start c ρ).Good fun _ _ _ _ _ => True := start_good hr
      obtain ⟨-, htodo⟩ := hgood.unseen y body (Set.notMem_empty y) hbody
      obtain ⟨hcovers, hsees⟩ := he.enter body (t.enter y) fun s hs => (htodo s hs).deeper hy.level
      refine ⟨(le_enter t y).trans hsees.le, fun z hz => ?_⟩
      rcases hsees.covers z hz with hz | hz
      · rcases List.mem_cons.1 hz with rfl | hz
        · exact .inr ⟨body, hbody, hcovers⟩
        · exact .inl hz
      · exact .inr hz

/-- A statement covers its lists and the literals below its expressions. -/
theorem tourInner {s : Stmt} (t : Tour) (hs : (start c ρ).Todo (d + 1) s) :
    Sees c.arena t (c.arena.tourInner enter s t) ∧
      ∀ b ∈ s.kind.blocks, (c.arena.tourInner enter s t).Covers c.arena b := by
  have hnear {x : ExprId} (hx : x ∈ s.kind.roots) :
      ∀ y ∈ c.arena.descendants x, (start c ρ).Near d y := fun y hy =>
    have hx := hs.1 x hx
    have hgood : (start c ρ).Good fun _ _ _ _ _ => True := start_good hr
    have hy := hgood.layered.descendants_inside hx.inside hy
    ⟨hy.1, hy.2.trans hx.level⟩
  have hroots := Sees.foldl (l := s.kind.roots) (f := c.arena.tourRoot enter s) fun t x hx =>
    (Sees.foldl (fun t y hy => he.tourLiteral hr t (hnear hx y hy)) t).trans (.visit _ _ (.root x s))
  have hblocks := Sees.foldl (a := c.arena) (l := s.kind.blocks) (f := fun t b => enter b t)
    (fun t b hb => (he.enter b t (hs.2 b hb)).2)
  refine ⟨(hblocks t).trans (hroots _), fun b hb => ?_⟩
  -- a list is covered when the tour leaves it, and stays so
  obtain ⟨l₁, l₂, hl⟩ := List.append_of_mem hb
  refine Covers.mono (hroots _).le ?_
  rw [hl, List.foldl_append, List.foldl_cons]
  exact (he.enter b _ (hs.2 b hb)).1.mono (le_foldl_enter he.grows _ l₂)

/-- **A list is covered** when it has been toured, and so is all that was seen on the way. -/
theorem tourList : ∀ (l : Block) (t : Tour), (∀ s ∈ l, (start c ρ).Todo (d + 1) s) →
    (c.arena.tourList enter l t).Covers c.arena l ∧ Sees c.arena t (c.arena.tourList enter l t)
  | [], t, _ => ⟨.nil, .refl _ _⟩
  | s :: rest, t, hl => by
    rw [List.forall_mem_cons] at hl
    obtain ⟨hsees, hblocks⟩ := he.tourInner hr t hl.1
    obtain ⟨hcovers, hrest⟩ := tourList rest
      ((c.arena.tourInner enter s t).visit (.statement s rest)) hl.2
    have hle := (le_visit (c.arena.tourInner enter s t) (.statement s rest)).trans hrest.le
    refine ⟨.cons ?_ (fun b hb => (hblocks b hb).mono hle) (fun x hx => ?_) hcovers,
      (hsees.trans (.visit _ _ _)).trans hrest⟩
    · exact hrest.le.visits.subset (List.mem_append_right _ (List.mem_singleton_self _))
    · obtain ⟨hroot, hseen⟩ := mem_tourInner (a := c.arena) he.grows t hx
      exact ⟨hle.visits.subset hroot, fun y hy hbody => hle.seen (hseen y hy hbody)⟩

end TourCovers

/-- **A tour covers** what it is deep enough for. -/
theorem tour_covers (hr : c.arena.Ranked ρ) (d : ℕ) : TourCovers c ρ (c.arena.tour d) d := by
  induction d with
  | zero =>
    refine ⟨fun _ _ => le_rfl, fun b t hb => ?_⟩
    cases b with
    | nil => exact ⟨.nil, .refl _ _⟩
    | cons s rest => exact (hb s List.mem_cons_self).elim
  | succ d ih => exact ⟨le_tour _ _, ih.tourList hr⟩

end Arena

namespace Chunk

variable {c : Chunk} {V : Vocabulary} {R : Prop}

/-- Ids of lists are inside. -/
theorem HasList.inside (h : c.Sound V R) {l : Block} (hl : c.HasList l) :
    ∀ x ∈ Block.ids l, x.index < c.arena.size := by
  obtain ⟨rank, hsound⟩ := h.arena
  induction hl with
  | body => exact h.inside
  | nested _ hs hb ih =>
    intro x hx
    exact ih x (Block.mem_ids_iff.2 ⟨_, hs, StmtKind.mem_ids.2 (.inr ⟨_, hb, hx⟩)⟩)
  | @literal l s x y b _ _ _ _ hbody _ =>
    intro z hz
    obtain ⟨func, hfunc, rfl⟩ := Arena.body?_eq_some.1 hbody
    refine hsound.ranked.inside y z ?_
    unfold Arena.Refers
    rw [hfunc]
    exact List.mem_append_right _ hz

/-- What a tour visits is inside the arena. -/
theorem inside_of_mem_tour (h : c.Sound V R) {x : ExprId} {s : Stmt} (hx : .root x s ∈ c.tour) :
    x.index < c.arena.size := by
  obtain ⟨l, hl, hs, hx⟩ := hasVisit_of_mem hx
  exact hl.inside h x (Block.mem_ids_iff.2 ⟨s, hs, StmtKind.mem_ids.2 (.inl hx)⟩)

/-- Ids of a list are roots of a statement in it, or in a list nested in it. -/
theorem HasList.exists_root {l : Block} (hl : c.HasList l) {x : ExprId} (hx : x ∈ Block.ids l) :
    ∃ l' s, c.HasList l' ∧ s ∈ l' ∧ x ∈ s.kind.roots := by
  induction l using Block.induction with
  | step l ih =>
    obtain ⟨s, hs, hx⟩ := Block.mem_ids_iff.1 hx
    rcases StmtKind.mem_ids.1 hx with hx | ⟨b, hb, hx⟩
    · exact ⟨l, s, hl, hs, hx⟩
    · exact ih s hs b hb (hl.nested hs hb) hx

/-- **What a chunk reaches is below a root** of a statement in one of its
lists. -/
theorem Reaches.exists_root {ρ : ExprId → ℚ} (hr : c.arena.Ranked ρ) {i : ExprId}
    (hi : c.Reaches i) : ∃ l s x, c.HasList l ∧ s ∈ l ∧ x ∈ s.kind.roots ∧
      i ∈ c.arena.descendants x := by
  obtain ⟨z, hz, hreaches⟩ := hi
  induction hreaches with
  | refl =>
    obtain ⟨l, s, hl, hs, hx⟩ := HasList.body.exists_root hz
    exact ⟨l, s, z, hl, hs, hx, c.arena.self_mem_descendants z⟩
  | @tail j k _ hjk ih =>
    obtain ⟨l, s, x, hl, hs, hx, hj⟩ := ih
    rcases List.mem_append.1 hjk with hjk | hjk
    · exact ⟨l, s, x, hl, hs, hx, hr.mem_descendants_of_child hj k hjk⟩
    · split at hjk
      · rename_i func hfunc
        have hbody : c.arena.body? j = some func.body := Arena.body?_eq_some.2 ⟨func, hfunc, rfl⟩
        obtain ⟨l', s', hl', hs', hx'⟩ := (hl.literal hs hx hj hbody).exists_root hjk
        exact ⟨l', s', k, hl', hs', hx', c.arena.self_mem_descendants k⟩
      · cases hjk

/-- **A tour comes by everything**: it has a visit for each root and each
statement of every list of a sound chunk, and no others. -/
theorem mem_tour (h : c.Sound V R) {v : Visit} : v ∈ c.tour ↔ c.HasVisit v := by
  refine ⟨hasVisit_of_mem, fun hv => ?_⟩
  obtain ⟨rank, hsound⟩ := h.arena
  obtain ⟨hcovers, hsees⟩ := (Arena.tour_covers hsound.ranked (Pass.depth c)).enter c.body .start
    fun s hs => Progress.start_todo_of_mem h.inside hs
  -- a list is covered where it is nested, and a literal's where it was seen
  have hlists : ∀ {l}, c.HasList l →
      (c.arena.tour (Pass.depth c) c.body .start).Covers c.arena l := by
    intro l hl
    induction hl with
    | body => exact hcovers
    | nested _ hs hb ih =>
      obtain ⟨before, behind, rfl⟩ := List.append_of_mem hs
      exact (ih.split rfl).2.1 _ hb
    | @literal l s x y b _ hs hx hy hbody ih =>
      obtain ⟨before, behind, rfl⟩ := List.append_of_mem hs
      have hseen := ((ih.split rfl).2.2 x hx).2 y hy (by simp [hbody])
      rcases hsees.covers y hseen with hy | ⟨body, hbody', hcovers⟩
      · cases hy
      · rwa [Option.some.inj (hbody.symm.trans hbody')]
  cases v with
  | root x s =>
    obtain ⟨l, hl, hs, hx⟩ := hv
    obtain ⟨before, behind, rfl⟩ := List.append_of_mem hs
    exact (((hlists hl).split rfl).2.2 x hx).1
  | statement s behind =>
    obtain ⟨before, hl⟩ := hv
    exact ((hlists hl).split rfl).1

end Chunk

end LuaSugar
