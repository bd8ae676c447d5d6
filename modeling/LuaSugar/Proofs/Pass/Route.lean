import Mathlib
import LuaSugar.Proofs.Pass.Unshared
/-!
# Routes

Where a chunk shares nothing a walk enters each literal where it comes to
it, and what a walk comes by can be told list by list, without the literals
that were entered before: the **route** of a list. A route is one of many
things that are gathered from a list by what is in its statements. A chunk
is never too deep for that (`Chunk.gather_eq`), so these are as good as
defined along the lists of the chunk.

The route of the body meets each id once (`Unshared.route_nodup`), hence the
tour is the route (`Unshared.tour_eq`).
-/

namespace LuaSugar

variable {α : Type}

/-! ## Lists of a chunk -/

/-- A list directly inside a statement: nested in it, or the body of a
literal below one of its roots. -/
def Arena.Inside (a : Arena) (s : Stmt) (b : Block) : Prop :=
  b ∈ s.kind.blocks ∨ ∃ x ∈ s.kind.roots, ∃ y ∈ a.descendants x, a.body? y = some b

namespace Chunk

variable {c : Chunk} {V : Vocabulary} {R : Prop}

theorem HasList.into {l b : Block} {s : Stmt} (hl : c.HasList l) (hs : s ∈ l)
    (hb : c.arena.Inside s b) : c.HasList b := by
  rcases hb with hb | ⟨x, hx, y, hy, hb⟩
  · exact hl.nested hs hb
  · exact hl.literal hs hx hy hb

/-- **Induction on depth**: a walk may go so deep that it comes to the end of
every list of a sound chunk. -/
theorem depth_induction (h : c.Sound V R) {P : ℕ → Block → Prop} (nil : ∀ d, c.HasList [] → P d [])
    (step : ∀ d l, c.HasList l → (∀ s ∈ l, ∀ b, c.arena.Inside s b → P d b) → P (d + 1) l)
    {l : Block} (hl : c.HasList l) : P (Pass.depth c) l := by
  obtain ⟨ρ, harena⟩ := h.arena
  have hgood : (Progress.start c ρ).Good fun _ _ _ _ _ => True := Progress.start_good harena.ranked
  -- one level deeper there is one visit less to come
  have hinto {d : ℕ} {s : Stmt} (hs : (Progress.start c ρ).Todo (d + 1) s) {b : Block}
      (hb : c.arena.Inside s b) : ∀ t ∈ b, (Progress.start c ρ).Todo d t := by
    rcases hb with hb | ⟨x, hx, y, hy, hb⟩
    · exact hs.2 b hb
    · have hy := hgood.layered.descendants_inside (hs.1 x hx).inside hy
      exact fun t ht => ((hgood.unseen y b (Set.notMem_empty y) hb).2 t ht).deeper
        (hy.2.trans (hs.1 x hx).level)
  have hdeep : ∀ d l, c.HasList l → (∀ s ∈ l, (Progress.start c ρ).Todo d s) → P d l := by
    intro d
    induction d with
    | zero =>
      intro l hl htodo
      obtain rfl : l = [] := List.eq_nil_iff_forall_not_mem.2 htodo
      exact nil 0 hl
    | succ d ih =>
      exact fun l hl htodo => step d l hl fun s hs b hb => ih b (hl.into hs hb) (hinto (htodo s hs) hb)
  -- and the list is no deeper than the bound, which follows from where it is
  refine hdeep _ l hl ?_
  induction hl with
  | body => exact fun s hs => Progress.start_todo_of_mem h.inside hs
  | nested _ hs hb ih =>
    cases hd : Pass.depth c with
    | zero => exact (hd ▸ ih _ hs).elim
    | succ d => exact fun t ht => (hinto (hd ▸ ih _ hs) (.inl hb) t ht).deeper (Nat.le_succ d)
  | literal _ hs hx hy hb ih =>
    cases hd : Pass.depth c with
    | zero => exact (hd ▸ ih _ hs).elim
    | succ d =>
      exact fun t ht => (hinto (hd ▸ ih _ hs) (.inr ⟨_, hx, _, hy, hb⟩) t ht).deeper (Nat.le_succ d)

/-- **Induction on the lists of a chunk**, from those directly inside their
statements. -/
theorem list_induction (h : c.Sound V R) {P : Block → Prop}
    (step : ∀ l, c.HasList l → (∀ s ∈ l, ∀ b, c.arena.Inside s b → P b) → P l)
    {l : Block} (hl : c.HasList l) : P l :=
  depth_induction (P := fun _ l => P l) h (fun _ hl => step [] hl (by simp)) (fun _ => step) hl

end Chunk

/-! ## Gathering -/

/-- What a step finds in the statements of a list, at most so many lists
deep. -/
def Block.gather (step : (Block → List α) → Stmt → List α) : ℕ → Block → List α
  | 0, _ => []
  | d + 1, l => l.flatMap (step (Block.gather step d))

/-- A step enters no lists but those directly inside. -/
def Arena.Enters (a : Arena) (step : (Block → List α) → Stmt → List α) : Prop :=
  ∀ f g s, (∀ b, a.Inside s b → f b = g b) → step f s = step g s

/-- What a step finds in a list of a chunk. -/
def Chunk.gather (c : Chunk) (step : (Block → List α) → Stmt → List α) (l : Block) : List α :=
  Block.gather step (Pass.depth c) l

/-- **Gathering ends**: it goes down to the lists of a chunk that have no
others inside. -/
theorem Chunk.gather_eq {c : Chunk} {V : Vocabulary} {R : Prop} (h : c.Sound V R)
    {step : (Block → List α) → Stmt → List α} (hstep : c.arena.Enters step) {l : Block}
    (hl : c.HasList l) : c.gather step l = l.flatMap (step (c.gather step)) := by
  have hends : ∀ e, Pass.depth c ≤ e → Block.gather step e l = Block.gather step (Pass.depth c) l := by
    refine Chunk.depth_induction (P := fun d l => ∀ e, d ≤ e → Block.gather step e l =
      Block.gather step d l) h ?_ ?_ hl
    · intro d _ e _
      cases d <;> cases e <;> rfl
    · intro d l _ ih e hle
      obtain ⟨e, rfl⟩ : ∃ k, e = k + 1 := ⟨e - 1, by omega⟩
      exact List.flatMap_congr fun s hs => hstep _ _ s fun b hb => ih s hs b hb e (by omega)
  exact (hends (Pass.depth c + 1) (Nat.le_succ _)).symm

/-! ## The route of a list -/

/-- The bodies of literals below an id, one behind the other. -/
def Arena.bodies (a : Arena) (f : Block → List α) (x : ExprId) : List α :=
  (a.descendants x).flatMap fun y => (a.body? y).elim [] f

theorem Arena.bodies_congr {a : Arena} {f g : Block → List α} {x : ExprId}
    (h : ∀ y ∈ a.descendants x, ∀ b, a.body? y = some b → f b = g b) :
    a.bodies f x = a.bodies g x := by
  refine List.flatMap_congr fun y hy => ?_
  cases hbody : a.body? y with
  | none => rfl
  | some b => exact h y hy b hbody

/-- The roots at and inside a statement in the order of a walk, each with the
statement that it belongs to. -/
def Arena.routeStep (a : Arena) (f : Block → List (ExprId × Stmt)) (s : Stmt) :
    List (ExprId × Stmt) :=
  s.kind.blocks.flatMap f ++ s.kind.roots.flatMap fun x => a.bodies f x ++ [(x, s)]

theorem Arena.enters_routeStep (a : Arena) : a.Enters a.routeStep := by
  intro f g s hfg
  unfold routeStep
  congr 1
  · exact List.flatMap_congr fun b hb => hfg b (.inl hb)
  · exact List.flatMap_congr fun x hx => congrArg (· ++ _) <|
      Arena.bodies_congr fun y hy b hb => hfg b (.inr ⟨x, hx, y, hy, hb⟩)

namespace Chunk

variable (c : Chunk)

def route (l : Block) : List (ExprId × Stmt) := c.gather c.arena.routeStep l

/-- What is below the roots of a route. -/
def below (r : List (ExprId × Stmt)) : List ExprId := r.flatMap fun p => c.arena.descendants p.1

variable {c} {V : Vocabulary} {R : Prop} {l : Block}

theorem route_eq (h : c.Sound V R) (hl : c.HasList l) :
    c.route l = l.flatMap (c.arena.routeStep c.route) :=
  gather_eq h c.arena.enters_routeStep hl

/-- A route comes by nothing but roots of the lists. -/
theorem hasRoot_of_mem_route (h : c.Sound V R) (hl : c.HasList l) {x : ExprId} {s : Stmt}
    (hx : (x, s) ∈ c.route l) : ∃ l', c.HasList l' ∧ s ∈ l' ∧ x ∈ s.kind.roots := by
  refine list_induction (P := fun l => (x, s) ∈ c.route l → _) h (fun l hl ih hx => ?_) hl hx
  rw [route_eq h hl] at hx
  obtain ⟨t, ht, hx⟩ := List.mem_flatMap.1 hx
  rcases List.mem_append.1 hx with hx | hx
  · obtain ⟨b, hb, hx⟩ := List.mem_flatMap.1 hx
    exact ih t ht b (.inl hb) hx
  · obtain ⟨z, hz, hx⟩ := List.mem_flatMap.1 hx
    rcases List.mem_append.1 hx with hx | hx
    · obtain ⟨y, hy, hx⟩ := List.mem_flatMap.1 hx
      cases hb : c.arena.body? y with
      | none => simp [hb] at hx
      | some b => exact ih t ht b (.inr ⟨z, hz, y, hy, hb⟩) (by simpa [hb] using hx)
    · obtain ⟨rfl, rfl⟩ := Prod.mk.inj (List.mem_singleton.1 hx)
      exact ⟨l, hl, ht, hz⟩

end Chunk

/-! ## A route meets each id once -/

theorem sum_map_flatMap {α β : Type} (f : β → ℕ) (g : α → List β) (l : List α) :
    ((l.flatMap g).map f).sum = (l.map fun v => ((g v).map f).sum).sum := by
  induction l with
  | nil => rfl
  | cons v l ih => rw [List.flatMap_cons, List.map_append, List.sum_append, ih, List.map_cons,
      List.sum_cons]

theorem sum_map_filter {α : Type} (f : α → ℕ) (q : α → Bool) {l : List α}
    (h : ∀ v ∈ l, q v = false → f v = 0) : ((l.filter q).map f).sum = (l.map f).sum := by
  induction l with
  | nil => rfl
  | cons v l ih =>
    rw [List.forall_mem_cons] at h
    cases hq : q v with
    | true => rw [List.filter_cons_of_pos hq, List.map_cons, List.map_cons, List.sum_cons,
        List.sum_cons, ih h.2]
    | false => rw [List.filter_cons_of_neg (by simp [hq]), List.map_cons, List.sum_cons, h.1 hq,
        Nat.zero_add, ih h.2]

/-- What is below an id: itself, and the children of all that is below it. -/
theorem Arena.Ranked.descendants_perm {a : Arena} {ρ : ExprId → ℚ} (hr : a.Ranked ρ) (x : ExprId) :
    (a.descendants x).Perm (x :: (a.descendants x).flatMap fun y => (a.get y).children) := by
  induction hn : a.height ρ x using Nat.strong_induction_on generalizing x with
  | _ n ih =>
    have hchildren : ((a.get x).children.flatMap a.descendants).Perm ((a.get x).children ++
        ((a.get x).children.flatMap a.descendants).flatMap fun y => (a.get y).children) := by
      have hstep := List.Perm.flatMap_left (a.get x).children fun z hz =>
        ih _ (hn ▸ hr.graded _ _ (Arena.refers_of_mem_children hz)) z rfl
      refine hstep.trans ?_
      rw [List.flatMap_assoc]
      have happend := List.flatMap_append_perm (a.get x).children (fun z => [z])
        fun z => (a.descendants z).flatMap fun y => (a.get y).children
      rw [List.flatMap_singleton'] at happend
      exact happend.symm
    rw [hr.descendants_eq x, List.flatMap_append, List.flatMap_singleton]
    refine List.perm_append_comm.trans (List.Perm.cons x (hchildren.trans ?_))
    exact List.perm_append_comm

namespace Chunk

variable {c : Chunk} {V : Vocabulary} {R : Prop} {l : Block} {ρ : ExprId → ℚ}

/-- What a route weighs, statement by statement. -/
theorem sum_route (h : c.Sound V R) (hl : c.HasList l) (φ : ExprId → ℕ) :
    ((c.route l).map fun p => φ p.1).sum = (l.map fun s =>
      (s.kind.blocks.map fun b => ((c.route b).map fun p => φ p.1).sum).sum +
        (s.kind.roots.map fun x => ((c.arena.descendants x).map fun y =>
          (c.arena.body? y).elim 0 fun b => ((c.route b).map fun p => φ p.1).sum).sum + φ x).sum).sum := by
  have hbodies (x : ExprId) : ((c.arena.bodies c.route x).map fun p => φ p.1).sum =
      ((c.arena.descendants x).map fun y =>
        (c.arena.body? y).elim 0 fun b => ((c.route b).map fun p => φ p.1).sum).sum := by
    rw [Arena.bodies, sum_map_flatMap]
    refine congrArg List.sum (List.map_congr_left fun y _ => ?_)
    cases c.arena.body? y <;> rfl
  rw [route_eq h hl, sum_map_flatMap]
  refine congrArg List.sum (List.map_congr_left fun s _ => ?_)
  rw [Arena.routeStep, List.map_append, List.sum_append, sum_map_flatMap, sum_map_flatMap]
  simp only [List.map_append, List.sum_append, hbodies, List.map_singleton, List.sum_singleton]

/-- **Below a route** an id is as often as the list holds it and what is below
the route refers to it. -/
theorem count_below (h : c.Sound V R) (z : ExprId) (hl : c.HasList l) :
    (c.below (c.route l)).count z = (Block.ids l).count z +
      ((c.below (c.route l)).map fun y => ((c.arena.get y).refs).count z).sum := by
  obtain ⟨ρ, harena⟩ := h.arena
  have hbelow (φ : ExprId → ℕ) (r : List (ExprId × Stmt)) : ((c.below r).map φ).sum =
      (r.map fun p => ((c.arena.descendants p.1).map φ).sum).sum := by
    rw [below, sum_map_flatMap]
  -- a count is a weight
  have hcount (r : List (ExprId × Stmt)) : (c.below r).count z =
      (r.map fun p => (c.arena.descendants p.1).count z).sum := by
    rw [below, List.count_flatMap]
    rfl
  have hroot (x : ExprId) : (c.arena.descendants x).count z = [x].count z +
      ((c.arena.descendants x).map fun y => ((c.arena.get y).children).count z).sum := by
    rw [(harena.ranked.descendants_perm x).count_eq, List.count_cons, List.count_flatMap,
      List.count_singleton]
    simp only [Function.comp_def]
    omega
  refine list_induction (P := fun l => (c.below (c.route l)).count z = (Block.ids l).count z +
    ((c.below (c.route l)).map fun y => ((c.arena.get y).refs).count z).sum) h
    (fun l hl ih => ?_) hl
  simp only [hcount, hbelow] at ih ⊢
  have hids : (Block.ids l).count z = (l.map fun s => (s.kind.roots.map fun x => [x].count z).sum +
      (s.kind.blocks.map fun b => (Block.ids b).count z).sum).sum := by
    clear ih hl
    induction l with
    | nil => rfl
    | cons s l ih =>
      have hroots : (s.kind.roots.map fun x => [x].count z).sum = s.kind.roots.count z := by
        have hflat := List.count_flatMap (x := z) (l := s.kind.roots) (f := fun x => [x])
        rw [List.flatMap_singleton'] at hflat
        exact hflat.symm
      rw [Block.ids_cons, StmtKind.ids_eq, List.count_append, List.count_append, List.count_flatMap,
        ih, List.map_cons, List.sum_cons, hroots]
      rfl
  rw [sum_route h hl fun x => (c.arena.descendants x).count z,
    sum_route h hl fun x => ((c.arena.descendants x).map fun y => ((c.arena.get y).refs).count z).sum,
    hids, ← List.sum_map_add]
  refine congrArg List.sum (List.map_congr_left fun s hs => ?_)
  have hblocks := List.map_congr_left fun b hb => ih s hs b (.inl hb)
  have hroots := List.map_congr_left (l := s.kind.roots) fun x hx => show
      ((c.arena.descendants x).map fun y => (c.arena.body? y).elim 0 fun b => ((c.route b).map fun p =>
        (c.arena.descendants p.1).count z).sum).sum + (c.arena.descendants x).count z =
      [x].count z + (((c.arena.descendants x).map fun y => (c.arena.body? y).elim 0 fun b =>
        ((c.route b).map fun p => ((c.arena.descendants p.1).map fun y =>
          ((c.arena.get y).refs).count z).sum).sum).sum +
        ((c.arena.descendants x).map fun y => ((c.arena.get y).refs).count z).sum) by
    have hbody := List.map_congr_left (l := c.arena.descendants x) fun y hy => show
        ((c.arena.body? y).elim 0 fun b => ((c.route b).map fun p =>
          (c.arena.descendants p.1).count z).sum) = (c.arena.bodyIds y).count z +
        (c.arena.body? y).elim 0 fun b => ((c.route b).map fun p =>
          ((c.arena.descendants p.1).map fun y => ((c.arena.get y).refs).count z).sum).sum by
      rw [Arena.bodyIds]
      cases hb : c.arena.body? y with
      | none => rfl
      | some b => exact ih s hs b (.inr ⟨x, hx, y, hy, hb⟩)
    rw [hbody, hroot x]
    simp only [Arena.refs_get, List.count_append, List.sum_map_add]
    omega
  rw [hblocks, hroots]
  simp only [List.sum_map_add]
  omega

/-- **A route meets each id once** where nothing is shared. -/
theorem Unshared.route_nodup (h : c.Sound V R) (hunshared : c.Unshared) :
    (c.below (c.route c.body)).Nodup := by
  obtain ⟨ρ, harena⟩ := h.arena
  have hcount (z : ExprId) := count_below h z .body
  have hreach : ∀ p ∈ c.below (c.route c.body), c.Reaches p := by
    intro p hp
    obtain ⟨⟨x, s⟩, hx, hp⟩ := List.mem_flatMap.1 hp
    obtain ⟨l, hl, hs, hx⟩ := hasRoot_of_mem_route h .body hx
    exact hl.reaches_below hs hx hp
  generalize c.below (c.route c.body) = below at hcount hreach
  refine List.nodup_iff_count_le_one.2 fun z => ?_
  -- heights grow from a node to those that refer to it, so the highest id is first
  induction hn : c.arena.size - c.arena.height ρ z using Nat.strong_induction_on generalizing z with
  | _ n ih =>
    let parent (p : ExprId) : Bool := z ∈ (c.arena.get p).refs
    have hnodup : (below.filter parent).Nodup := by
      refine List.nodup_iff_count_le_one.2 fun p => ?_
      by_cases hp : parent p
      · have hrefers : z ∈ (c.arena.get p).refs := of_decide_eq_true hp
        have hlt : c.arena.height ρ z < c.arena.height ρ p := harena.ranked.graded p z hrefers
        have hle := c.arena.height_le ρ p
        rw [List.count_filter hp]
        exact ih _ (by omega) p rfl
      · rw [List.count_eq_zero_of_not_mem fun hmem => hp (List.mem_filter.1 hmem).2]
        exact Nat.zero_le _
    have hone := List.nodup_iff_count_le_one.1
      (hunshared.refs_nodup hnodup fun p hp => hreach p (List.mem_of_mem_filter hp)) z
    rw [List.count_append, List.count_flatMap] at hone
    simp only [Function.comp_def] at hone
    rw [sum_map_filter _ _ fun p _ hp => List.count_eq_zero_of_not_mem
      (by simpa [parent] using hp)] at hone
    rw [hcount]
    exact hone

end Chunk

/-! ## The tour is the route -/

/-- The root that a tour comes by, with its statement. -/
def Visit.root? : Visit → Option (ExprId × Stmt)
  | .root x s => some (x, s)
  | .statement _ _ => none

namespace Tour

/-- From one tour to another these roots are come by, and at most these
literals are entered. -/
structure Goes (r : List (ExprId × Stmt)) (ys : List ExprId) (t t' : Tour) : Prop where
  visits : t'.visits.filterMap Visit.root? = t.visits.filterMap Visit.root? ++ r
  seen : ∀ y ∈ t'.seen, y ∈ t.seen ∨ y ∈ ys

/-- As `Goes`, if what is entered is there once and was not entered before. -/
def Way (r : List (ExprId × Stmt)) (ys : List ExprId) (step : Tour → Tour) : Prop :=
  ∀ t, ys.Nodup → (∀ y ∈ ys, y ∉ t.seen) → Goes r ys t (step t)

variable {r r' : List (ExprId × Stmt)} {ys ys' : List ExprId} {f g : Tour → Tour}

theorem Goes.mono {t t' : Tour} (h : Goes r ys t t') (hsub : ys ⊆ ys') : Goes r ys' t t' :=
  ⟨h.visits, fun y hy => (h.seen y hy).imp_right fun hy => hsub hy⟩

theorem Way.perm (h : Way r ys f) (hperm : ys.Perm ys') : Way r ys' f := fun t hnodup hnew =>
  (h t (hperm.nodup_iff.2 hnodup) fun y hy => hnew y (hperm.mem_iff.1 hy)).mono hperm.subset

theorem Way.id : Way [] [] fun t => t := fun _ _ _ => ⟨by simp, fun _ hy => .inl hy⟩

theorem Way.comp (h : Way r ys f) (h' : Way r' ys' g) : Way (r ++ r') (ys ++ ys') fun t => g (f t) := by
  intro t hnodup hnew
  obtain ⟨hys, hys', hapart⟩ := List.nodup_append'.1 hnodup
  rw [List.forall_mem_append] at hnew
  have hfirst := h t hys hnew.1
  have hsecond := h' (f t) hys' fun y hy hmem => (hfirst.seen y hmem).elim (hnew.2 y hy)
    fun hy' => hapart hy' hy
  refine ⟨by rw [hsecond.visits, hfirst.visits, List.append_assoc], fun y hy => ?_⟩
  rw [List.mem_append]
  exact (hsecond.seen y hy).elim (fun hy => (hfirst.seen y hy).imp_right .inl) fun hy => .inr (.inr hy)

theorem Way.foldl {T : Tour → α → Tour} {ρ : α → List (ExprId × Stmt)} {η : α → List ExprId} :
    ∀ {l : List α}, (∀ v ∈ l, Way (ρ v) (η v) fun t => T t v) →
      Way (l.flatMap ρ) (l.flatMap η) fun t => l.foldl T t
  | [], _ => .id
  | v :: l, h => by
    rw [List.forall_mem_cons] at h
    exact h.1.comp (Way.foldl h.2)

theorem Way.visit (v : Visit) : Way v.root?.toList [] fun t => t.visit v := by
  refine fun t _ _ => ⟨?_, fun _ hy => .inl hy⟩
  show (t.visits ++ [v]).filterMap Visit.root? = _
  rw [List.filterMap_append]
  cases v <;> rfl

/-- More literals may be entered than are. -/
theorem Way.weaken (h : Way r ys f) (extra : List ExprId) : Way r (extra ++ ys) f :=
  fun t hnodup hnew => (h t hnodup.of_append_right fun y hy =>
    hnew y (List.mem_append_right _ hy)).mono (List.subset_append_right _ _)

end Tour

namespace Chunk

open Tour

variable {c : Chunk} {V : Vocabulary} {R : Prop}

/-- **Below a root** the tour goes along the bodies of the literals. -/
theorem way_tourRoot {enter : Block → Tour → Tour} {f : Block → List (ExprId × Stmt)}
    (he : ∀ b, Way (f b) (c.below (f b)) (enter b)) (s : Stmt) (x : ExprId) :
    Way (c.arena.bodies f x ++ [(x, s)]) (c.below (c.arena.bodies f x ++ [(x, s)]))
      fun t => c.arena.tourRoot enter s t x := by
  have hliteral (y : ExprId) : Way ((c.arena.body? y).elim [] f)
      (y :: c.below ((c.arena.body? y).elim [] f)) fun t => c.arena.tourLiteral enter t y := by
    unfold Arena.tourLiteral
    cases hbody : c.arena.body? y with
    | none => exact Way.id.weaken [y]
    | some b =>
      intro t hnodup hnew
      rw [List.nodup_cons] at hnodup
      rw [List.forall_mem_cons] at hnew
      -- the literal is new to the tour, so it is entered
      simp only [hnew.1, if_false]
      have hgoes := he b (t.enter y) hnodup.2 fun z hz hmem => by
        rcases List.mem_cons.1 hmem with rfl | hmem
        · exact hnodup.1 hz
        · exact hnew.2 z hz hmem
      refine ⟨hgoes.visits, fun z hz => ?_⟩
      rcases hgoes.seen z hz with hz | hz
      · rcases List.mem_cons.1 hz with rfl | hz
        · exact .inr List.mem_cons_self
        · exact .inl hz
      · exact .inr (List.mem_cons_of_mem _ hz)
  have hroot := (Way.foldl (l := c.arena.descendants x) fun y _ => hliteral y).comp
    (Way.visit (.root x s))
  refine hroot.perm ?_
  -- the literals and what is below them, in another order
  have hperm := List.flatMap_append_perm (c.arena.descendants x) (fun y => [y])
    fun y => c.below ((c.arena.body? y).elim [] f)
  rw [List.flatMap_singleton'] at hperm
  rw [List.append_nil, below, List.flatMap_append, List.flatMap_singleton, Arena.bodies,
    List.flatMap_assoc]
  exact hperm.symm.trans List.perm_append_comm

/-- **A tour of lists** goes along their routes. -/
theorem way_tour (c : Chunk) : ∀ (d : ℕ) (l : Block), Way (Block.gather c.arena.routeStep d l)
    (c.below (Block.gather c.arena.routeStep d l)) (c.arena.tour d l)
  | 0, _ => .id
  | d + 1, l => by
    have henter (b : Block) := way_tour c d b
    show Way _ _ (c.arena.tourList (c.arena.tour d) l)
    rw [Block.gather]
    induction l with
    | nil => exact .id
    | cons s l ih =>
      have hblocks := Way.foldl (l := s.kind.blocks) (T := fun t b => c.arena.tour d b t)
        fun b _ => henter b
      have hroots := Way.foldl (l := s.kind.roots) fun x _ => way_tourRoot henter s x
      have hall := ((hblocks.comp hroots).comp (Way.visit (.statement s l))).comp ih
      simp only [below, Visit.root?, Option.toList_none, List.append_nil, List.append_assoc] at hall ⊢
      simp only [List.flatMap_cons, Arena.routeStep, List.flatMap_append, List.flatMap_assoc,
        List.append_assoc] at hall ⊢
      exact hall

/-- **The tour is the route** where nothing is shared. -/
theorem Unshared.tour_eq (h : c.Sound V R) (hunshared : c.Unshared) :
    c.tour.filterMap Visit.root? = c.route c.body :=
  (way_tour c (Pass.depth c) c.body .start (hunshared.route_nodup h) (by simp [Tour.start])).visits

end Chunk

/-! ## Tours meet each id once -/

/-- The root that a tour comes by. -/
def Visit.roots : Visit → List ExprId
  | .root x _ => [x]
  | .statement _ _ => []

/-- **Where nothing is shared a tour meets no id twice** at and below its
roots. -/
theorem Chunk.Unshared.descendants_nodup {c : Chunk} {V : Vocabulary} {R : Prop} (h : c.Sound V R)
    (hunshared : c.Unshared) : (c.tour.flatMap fun v => v.roots.flatMap c.arena.descendants).Nodup := by
  have hnodup := hunshared.route_nodup h
  rw [← hunshared.tour_eq h, Chunk.below, List.filterMap_eq_flatMap_toList, List.flatMap_assoc] at hnodup
  convert hnodup using 3 with v
  cases v <;> simp [Visit.roots, Visit.root?]

end LuaSugar
