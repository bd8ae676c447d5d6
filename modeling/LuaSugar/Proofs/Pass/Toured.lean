import Mathlib
import LuaSugar.Proofs.Pass.Tour
import LuaSugar.Proofs.Pass.Visits
/-!
# Walks follow the tour

Callbacks edit what is being walked, and a tour knows of no edits. Still a
walk comes by what the tour of its chunk comes by, in the same order, as
long as callbacks keep to what a **guide** allows: of the nodes that were
there on entry they overwrite only some that the tour has left behind, and
what they put in place of statements ahead stands for those.

Two passes are run side by side, so that one that does the same as another
along the tour of a chunk is known to do the same with that chunk; and a
run fails as the first visit of the tour that a callback fails at.
-/

namespace LuaSugar

namespace Pass

variable {σ ε α β : Type}

theorem forM_eq_mapM {m : Type → Type} [Monad m] [LawfulMonad m] (f : α → m PUnit) (l : List α) :
    l.forM f = (fun _ => PUnit.unit) <$> l.mapM f := by
  induction l with
  | nil => simp
  | cons v l ih =>
    rw [List.mapM_cons, map_bind]
    simp only [map_bind, map_pure]
    rw [← map_eq_pure_bind] 
    rw [← ih]
    rfl

/-! ## Guides -/

/-- What a walk along the tour of a chunk may do. -/
structure Guide (σ ε : Type) where
  chunk : Chunk
  /-- How a visit fails. -/
  fails : Visit → Option ε
  /-- The nodes that some visits have overwritten. -/
  touched : List Visit → Set ExprId
  /-- What some visits leave in the workspace. -/
  own : Workspace σ → List Visit → Prop
  /-- A statement ahead that was put in place of another. -/
  stands : Walk σ ε → Stmt → Stmt → Prop
  /-- Literals beside those of the chunk may be walked. -/
  beside : Prop

namespace Guide

variable (G : Guide σ ε)

/-- A walk that has come as far as the tour, and not failed. -/
structure At (walk : Walk σ ε) (t : Tour) : Prop where
  size : G.chunk.arena.size ≤ walk.space.arena.size
  hollow : ∀ i : ExprId, i.index < G.chunk.arena.size → i ∉ G.touched t.visits →
    (walk.space.arena.get i).hollow = (G.chunk.arena.get i).hollow
  seen : ∀ i : ExprId, i.index < G.chunk.arena.size → (i ∈ walk.seen ↔ i ∈ t.seen)
  unseen : ∀ i : ExprId, i.index < G.chunk.arena.size → i ∉ G.touched t.visits → i ∉ t.seen →
    walk.space.arena.body? i = G.chunk.arena.body? i
  inside : ∀ i ∈ walk.seen, i.index < walk.space.arena.size
  succeeded : walk.failure = none
  passed : t.visits.findSome? G.fails = none
  own : G.own walk.space t.visits

/-- A walk that has failed as the tour says. -/
def Failed (walk : Walk σ ε) (t : Tour) : Prop :=
  ∃ e, walk.failure = some e ∧ t.visits.findSome? G.fails = some e

/-- Two steps that do the same and come as far as the tour, or the first
fails as the tour says. -/
def Follows (m m' : StateM (Walk σ ε) α) (Q : Walk σ ε → α → Prop) (walk : Walk σ ε) (t : Tour) :
    Prop :=
  G.Failed (m walk).2 t ∨ m' walk = m walk ∧ G.At (m walk).2 t ∧ Q (m walk).2 (m walk).1

/-- The slots ahead of a walk in a list: inserted ones, and then those of
the list on entry, but for a statement that stands in front of them in
place of another. -/
def Ahead (walk : Walk σ ε) (slots : List Slot) (l : Block) : Prop :=
  ∃ skipped : List Slot, (∀ slot ∈ skipped, slot.fresh) ∧
    (slots = skipped ++ Block.slots l ∨ ∃ s s' rest, ∃ inserted : List Slot, l = s :: rest ∧
      (∀ slot ∈ inserted, slot.fresh) ∧ G.stands walk s' s ∧
      slots = skipped ++ ⟨s', false⟩ :: (inserted ++ Block.slots rest))

variable {G} {walk : Walk σ ε} {t t₁ t₂ : Tour} {m m' : StateM (Walk σ ε) α}
variable {Q : Walk σ ε → α → Prop} {R : Walk σ ε → β → Prop}

theorem Failed.mono (h : G.Failed walk t₁) (hle : t₁ ≤ t₂) : G.Failed walk t₂ := by
  obtain ⟨e, hwalk, ht⟩ := h
  obtain ⟨later, hlater⟩ := hle.visits
  refine ⟨e, hwalk, ?_⟩
  rw [← hlater, List.findSome?_append, ht]
  rfl

/-- After a failure the walk goes on without another. -/
theorem Failed.stays (h : G.Failed walk t₁) (hm : ∀ e, Stays (fun w => w.failure = some e) m)
    (hle : t₁ ≤ t₂) : G.Failed (m walk).2 t₂ := by
  obtain ⟨e, hwalk, ht⟩ := h
  exact Failed.mono ⟨e, hm e walk hwalk, ht⟩ hle

namespace Follows

theorem pure {v : α} (h : G.At walk t) (hq : Q walk v) :
    G.Follows (Pure.pure v) (Pure.pure v) Q walk t :=
  .inr ⟨rfl, h, hq⟩

theorem mono {Q' : Walk σ ε → α → Prop} (h : G.Follows m m' Q walk t)
    (hq : ∀ walk v, G.At walk t → Q walk v → Q' walk v) : G.Follows m m' Q' walk t :=
  h.imp id fun h => ⟨h.1, h.2.1, hq _ _ h.2.1 h.2.2⟩

/-- A root, by what is below it where the walk comes by. -/
theorem below {r r' : Pass σ ε} {enter enter' : Block → StateM (Walk σ ε) Block} {owner : Stmt}
    {x : ExprId} {Q : Walk σ ε → PUnit → Prop}
    (h : G.Follows
      ((walk.space.arena.descendants x).forM (Pass.walkLiteral enter) >>= fun _ =>
        Pass.attempt (r.expression x owner) ())
      ((walk.space.arena.descendants x).forM (Pass.walkLiteral enter') >>= fun _ =>
        Pass.attempt (r'.expression x owner) ()) Q walk t) :
    G.Follows (r.walkRoot enter owner x) (r'.walkRoot enter' owner x) Q walk t :=
  h

/-- What the step cannot lose is there afterwards. -/
theorem keeps {P : Walk σ ε → Prop} (h : G.Follows m m' Q walk t) (hm : Stays P m) (hp : P walk) :
    G.Follows m m' (fun walk v => Q walk v ∧ P walk) walk t :=
  h.imp id fun h => ⟨h.1, h.2.1, h.2.2, hm walk hp⟩

theorem bind {k k' : α → StateM (Walk σ ε) β} (hm : G.Follows m m' Q walk t₁)
    (hstays : ∀ e v, Stays (fun w => w.failure = some e) (k v)) (hle : t₁ ≤ t₂)
    (hk : ∀ v walk₁, G.At walk₁ t₁ → Q walk₁ v → G.Follows (k v) (k' v) R walk₁ t₂) :
    G.Follows (m >>= k) (m' >>= k') R walk t₂ := by
  rcases hm with hfailed | ⟨heq, hat, hq⟩
  · exact .inl (hfailed.stays (fun e => hstays e _) hle)
  · rcases hk _ _ hat hq with hfailed | ⟨heq', hat', hr⟩
    · exact .inl hfailed
    · refine .inr ⟨?_, hat', hr⟩
      show k' (m' walk).1 (m' walk).2 = k (m walk).1 (m walk).2
      rw [heq]
      exact heq'

theorem map {f : α → β} (h : G.Follows m m' Q walk t) (hr : ∀ walk v, Q walk v → R walk (f v)) :
    G.Follows (f <$> m) (f <$> m') R walk t := by
  rw [map_eq_pure_bind, map_eq_pure_bind]
  exact h.bind (fun _ _ => .pure _) le_rfl fun v _ hat hq => .pure hat (hr _ _ hq)

/-- A loop, along the same loop of the tour. -/
theorem mapM {f f' : α → StateM (Walk σ ε) β} {T : Tour → α → Tour} {l : List α}
    (hle : ∀ t v, t ≤ T t v) (hstays : ∀ e v, Stays (fun w => w.failure = some e) (f v))
    (hf : ∀ v ∈ l, ∀ walk t, G.At walk t → T t v ≤ t₂ →
      G.Follows (f v) (f' v) (fun _ _ => True) walk (T t v)) :
    ∀ {walk : Walk σ ε} {t : Tour}, G.At walk t → l.foldl T t ≤ t₂ →
      G.Follows (l.mapM f) (l.mapM f') (fun _ _ => True) walk (l.foldl T t) := by
  induction l with
  | nil => exact fun h _ => .pure h trivial
  | cons v l ih =>
    intro walk t h ht₂
    rw [List.forall_mem_cons] at hf
    have hrest : T t v ≤ l.foldl T (T t v) :=
      List.foldlRecOn l T le_rfl fun _ ht u _ => ht.trans (hle _ u)
    rw [List.mapM_cons, List.mapM_cons]
    refine (hf.1 walk t h (hrest.trans ht₂)).bind (fun e _ => ?_) hrest fun _ walk₁ hat _ => ?_
    · exact (Stays.mapM fun u _ => hstays e u).bind fun _ => .pure _
    · exact (ih hf.2 hat ht₂).bind (fun _ _ => .pure _) le_rfl fun _ _ hat _ => .pure hat trivial

theorem forM {f f' : α → StateM (Walk σ ε) PUnit} {T : Tour → α → Tour} {l : List α}
    (hle : ∀ t v, t ≤ T t v) (hstays : ∀ e v, Stays (fun w => w.failure = some e) (f v))
    (hf : ∀ v ∈ l, ∀ walk t, G.At walk t → T t v ≤ t₂ →
      G.Follows (f v) (f' v) (fun _ _ => True) walk (T t v))
    (h : G.At walk t) (ht₂ : l.foldl T t ≤ t₂) :
    G.Follows (l.forM f) (l.forM f') (fun _ _ => True) walk (l.foldl T t) := by
  rw [forM_eq_mapM, forM_eq_mapM]
  exact (mapM hle hstays hf h ht₂).map fun _ _ _ => trivial

/-- A step that leaves the walk where it is. -/
theorem rests {v : α} (hm : m walk = (v, walk)) (hm' : m' walk = (v, walk)) (h : G.At walk t) :
    G.Follows m m' (fun walk' v' => walk' = walk ∧ v' = v) walk t := by
  unfold Follows
  rw [hm, hm']
  exact .inr ⟨rfl, h, rfl, rfl⟩

/-- A callback that does nothing. -/
theorem attempt_idle {v : α} {edit edit' : Edit σ ε α} (hedit : edit = Pure.pure v)
    (hedit' : edit' = Pure.pure v) (h : G.At walk t) :
    G.Follows (Pass.attempt edit v) (Pass.attempt edit' v) (fun walk' v' => walk' = walk ∧ v' = v)
      walk t := by
  have hidle : Pass.attempt (Pure.pure v : Edit σ ε α) v walk = (v, walk) := by
    rw [attempt_eq]
    split <;> rfl
  exact .rests (hedit ▸ hidle) (hedit' ▸ hidle) h

/-- A callback on a statement that does nothing. -/
theorem visit_idle {r r' : Pass σ ε} {c : Cursor} (hr : r.statement c = Pure.pure c)
    (hr' : r'.statement c = Pure.pure c) (h : G.At walk t) :
    G.Follows (r.visit c) (r'.visit c) (fun walk' c' => walk' = walk ∧ c' = c) walk t := by
  have hidle (r : Pass σ ε) (hr : r.statement c = Pure.pure c) : r.visit c walk = (c, walk) := by
    rw [Pass.visit, hr, call_eq]
    split <;> rfl
  exact .rests (hidle r hr) (hidle r' hr') h

/-- A callback that does the same as another, and fails only as the tour
says. -/
theorem attempt {edit edit' : Edit σ ε α} {v₀ : α} (hsucceeded : walk.failure = none)
    (hsame : edit'.run walk.space = edit.run walk.space)
    (hok : ∀ v space, edit.run walk.space = (.ok v, space) →
      G.At { walk with space } t ∧ Q { walk with space } v)
    (herror : ∀ e space, edit.run walk.space = (.error e, space) →
      t.visits.findSome? G.fails = some e) :
    G.Follows (Pass.attempt edit v₀) (Pass.attempt edit' v₀) Q walk t := by
  have hnone : ¬ walk.failure.isSome := by simp [hsucceeded]
  unfold Follows
  rw [attempt_eq, attempt_eq, if_neg hnone, if_neg hnone, hsame]
  rcases hrun : edit.run walk.space with ⟨v | e, space⟩
  · exact .inl ⟨v, rfl, herror v space hrun⟩
  · exact .inr ⟨rfl, hok e space hrun⟩

end Follows

namespace At

/-- The tour comes by what does not fail, and what it leaves behind may be
overwritten. -/
theorem edit {v : Visit} {space : Workspace σ} (h : G.At walk t) (hfails : G.fails v = none)
    (hsize : walk.space.arena.size ≤ space.arena.size)
    (hget : ∀ i : ExprId, i.index < G.chunk.arena.size → i ∉ G.touched (t.visits ++ [v]) →
      space.arena.get i = walk.space.arena.get i)
    (htouched : G.touched t.visits ⊆ G.touched (t.visits ++ [v]))
    (hown : G.own walk.space t.visits → G.own space (t.visits ++ [v])) :
    G.At { walk with space } (t.visit v) := by
  refine ⟨h.size.trans hsize, fun i hi hi' => ?_, h.seen, fun i hi hi' hseen => ?_,
    fun i hi => (h.inside i hi).trans_le hsize, h.succeeded, ?_, hown h.own⟩
  · rw [← h.hollow i hi fun hmem => hi' (htouched hmem), hget i hi hi']
  · rw [← h.unseen i hi (fun hmem => hi' (htouched hmem)) hseen, Arena.body?, Arena.body?,
      hget i hi hi']
  · show (t.visits ++ [v]).findSome? G.fails = none
    rw [List.findSome?_append, h.passed]
    simpa using hfails

/-- New nodes are none of the chunk's. -/
theorem build {v : Visit} {space : Workspace σ} (h : G.At walk t) (hfails : G.fails v = none)
    (hext : walk.space.arena.Extends space.arena)
    (htouched : G.touched t.visits ⊆ G.touched (t.visits ++ [v]))
    (hown : G.own walk.space t.visits → G.own space (t.visits ++ [v])) :
    G.At { walk with space } (t.visit v) :=
  h.edit hfails hext.size_le (fun i hi _ => hext.get_eq i (hi.trans_le h.size)) htouched hown

theorem visit {v : Visit} (h : G.At walk t) (hfails : G.fails v = none)
    (htouched : G.touched t.visits ⊆ G.touched (t.visits ++ [v]))
    (hown : G.own walk.space t.visits → G.own walk.space (t.visits ++ [v])) :
    G.At walk (t.visit v) :=
  h.build hfails (.refl _) htouched hown

/-- The first visit that fails. -/
theorem findSome?_visit {v : Visit} {e : ε} (h : G.At walk t) (hfails : G.fails v = some e) :
    (t.visit v).visits.findSome? G.fails = some e := by
  show (t.visits ++ [v]).findSome? G.fails = some e
  rw [List.findSome?_append, h.passed]
  simpa using hfails

/-- Below a root the walk finds what the tour does. -/
theorem descendants_eq {ρ : ExprId → ℚ} (hr : G.chunk.arena.Ranked ρ) (h : G.At walk t) {x : ExprId}
    (hx : x.index < G.chunk.arena.size)
    (hx' : ∀ y ∈ G.chunk.arena.descendants x, y ∉ G.touched t.visits) :
    walk.space.arena.descendants x = G.chunk.arena.descendants x := by
  have hwithin : ∀ (n : ℕ) (x : ExprId), x.index < G.chunk.arena.size →
      (∀ y ∈ G.chunk.arena.descendants x, y ∉ G.touched t.visits) →
      walk.space.arena.descendantsWithin n x = G.chunk.arena.descendantsWithin n x := by
    intro n
    induction n with
    | zero => exact fun _ _ _ => rfl
    | succ n ih =>
      intro x hx hx'
      rw [Arena.descendantsWithin, Arena.descendantsWithin, Arena.children_of_hollow
        (h.hollow x hx (hx' x (Arena.self_mem_descendants _ x)))]
      congr 1
      refine List.flatMap_congr fun z hz => ih z (hr.inside x z (Arena.refers_of_mem_children hz))
        fun y hy => hx' y ?_
      rw [hr.descendants_eq]
      exact List.mem_append_left _ (List.mem_flatMap.2 ⟨z, hz, hy⟩)
  rw [Arena.descendants, hwithin _ x hx hx']
  exact hr.descendantsWithin_eq (Nat.lt_succ_of_le h.size) x

end At

/-! ## The steps of a walk -/

variable {r : Pass σ ε} {enter enter' : Block → StateM (Walk σ ε) Block} {T : Block → Tour → Tour}

/-- Two walks of lists do the same along the tour of lists, and lose nothing
that the pass does not. -/
structure Enters (G : Guide σ ε) (r : Pass σ ε) (enter enter' : Block → StateM (Walk σ ε) Block)
    (T : Block → Tour → Tour) : Prop where
  lasts : ∀ {P}, Lasting r P → ∀ block, Stays P (enter block)
  grows : ∀ block t, t ≤ T block t
  follows : ∀ block walk t, G.At walk t → (T block t).visits <+: G.chunk.tour →
    G.Follows (enter block) (enter' block) (fun _ _ => True) walk (T block t)

theorem Enters.stays (he : G.Enters r enter enter' T) (e : ε) (block : Block) :
    Stays (fun walk => walk.failure = some e) (enter block) :=
  he.lasts (.failure r e) block

/-- The lists nested in a statement. -/
theorem Enters.mapBlocks (he : G.Enters r enter enter' T) (kind : StmtKind) (h : G.At walk t)
    (htour : (kind.blocks.foldl (fun t b => T b t) t).visits <+: G.chunk.tour) :
    G.Follows (kind.mapBlocksM enter) (kind.mapBlocksM enter')
      (fun _ kind' => kind'.hollow = kind.hollow) walk
      (kind.blocks.foldl (fun t b => T b t) t) := by
  rw [StmtKind.mapBlocksM_eq, StmtKind.mapBlocksM_eq]
  refine (Follows.mapM (fun t b => he.grows b t) he.stays (fun b _ walk t hat hle => ?_) h
    le_rfl).map fun _ _ _ => kind.hollow_putBlocks _
  exact he.follows b walk t hat (hle.visits.trans htour)

end Guide

/-- A pass that keeps to a guide at the roots of statements, beside another
that does the same. -/
structure ToursRoots (G : Guide σ ε) (r r' : Pass σ ε) : Prop where
  ranked : ∃ ρ, G.chunk.arena.Ranked ρ
  inside : ∀ {x s}, .root x s ∈ G.chunk.tour → x.index < G.chunk.arena.size
  touched_mono : ∀ {vs vs'}, vs <+: vs' → G.touched vs ⊆ G.touched vs'
  /-- What is below a root is not overwritten before the tour comes by it. -/
  untouched : ∀ {vs x s}, vs ++ [.root x s] <+: G.chunk.tour →
    ∀ y ∈ G.chunk.arena.descendants x, y ∉ G.touched vs
  /-- Bodies that are taken out and put back do not matter. -/
  own : ∀ {space : Workspace σ} {vs y} body,
    (y.index < G.chunk.arena.size → G.chunk.arena.body? y ≠ none) →
      (G.chunk.arena.size ≤ y.index → G.beside) → G.own space vs →
      G.own { space with arena := space.arena.setBody y body } vs
  expression : ∀ {walk t x s} (owner : Stmt), owner.line = s.line → G.At walk t →
    t.visits ++ [.root x s] <+: G.chunk.tour →
    (∀ y ∈ G.chunk.arena.descendants x, G.chunk.arena.body? y ≠ none → y ∈ t.seen) →
    G.Follows (attempt (r.expression x owner) ()) (attempt (r'.expression x owner) ())
      (fun _ _ => True) walk (t.visit (.root x s))

/-- **A pass that keeps to a guide**, beside another that does the same. -/
structure Toured (G : Guide σ ε) (r r' : Pass σ ε) : Prop extends ToursRoots G r r' where
  statement : ∀ {walk t s s' before rest}, G.At walk t →
    t.visits ++ [.statement s rest] <+: G.chunk.tour → s'.line = s.line →
    s'.kind.hollow = s.kind.hollow →
    (∀ x ∈ s.kind.roots, ∀ y ∈ G.chunk.arena.descendants x, G.chunk.arena.body? y ≠ none →
      y ∈ t.seen) →
    G.Follows (r.visit ⟨before, ⟨s', false⟩, Block.slots rest⟩)
      (r'.visit ⟨before, ⟨s', false⟩, Block.slots rest⟩)
      (fun walk' c => G.Ahead walk' c.after rest) walk (t.visit (.statement s rest))
  /-- What stands for a statement is walked as that would be, and then left
  as it is. -/
  inner : ∀ {enter enter' T}, G.Enters r enter enter' T → ∀ {walk t s s' rest}, G.At walk t →
    G.stands walk s' s →
    ((G.chunk.arena.tourInner T s t).visit (.statement s rest)).visits <+: G.chunk.tour →
    G.Follows (r.inner enter s') (r'.inner enter' s')
      (fun walk' s'' => (∀ c : Cursor, c.stmt = s'' →
          r.statement c = pure c ∧ r'.statement c = pure c) ∧
        G.At walk' ((G.chunk.arena.tourInner T s t).visit (.statement s rest))) walk
      (G.chunk.arena.tourInner T s t)

namespace ToursRoots

open Guide

variable {G : Guide σ ε} {r r' : Pass σ ε} {walk : Walk σ ε} {t : Tour} {x y : ExprId}
variable {enter enter' : Block → StateM (Walk σ ε) Block} {T : Block → Tour → Tour}

/-- The body of a literal changes nothing that a guide is about. -/
theorem setBody (hG : ToursRoots G r r') (h : G.At walk t) (body : Block)
    (hy : y.index < G.chunk.arena.size → G.chunk.arena.body? y ≠ none ∧ y ∈ t.seen)
    (hbeside : G.chunk.arena.size ≤ y.index → G.beside) :
    G.At { walk with space := { walk.space with arena := walk.space.arena.setBody y body } } t := by
  refine ⟨?_, fun i hi hi' => ?_, h.seen, fun i hi hi' hseen => ?_, fun i hi => ?_, h.succeeded,
    h.passed, hG.own body (fun hinside => (hy hinside).1) hbeside h.own⟩
  · simpa using h.size
  · rw [Arena.hollow_setBody]
    exact h.hollow i hi hi'
  · have hne : i ≠ y := by
      rintro rfl
      exact hseen (hy hi).2
    rw [← h.unseen i hi hi' hseen, Arena.body?, Arena.body?, Arena.get_setBody_of_ne _ hne]
  · simpa using h.inside i hi

/-- A literal is entered: one of the chunk along the tour, another beside
it. -/
theorem see (h : G.At walk t) (hy : y.index < walk.space.arena.size) :
    G.At { walk with seen := y :: walk.seen }
      (if y.index < G.chunk.arena.size then t.enter y else t) := by
  have hseen (i : ExprId) (hi : i.index < G.chunk.arena.size) : i ∈ y :: walk.seen ↔
      i ∈ (if y.index < G.chunk.arena.size then t.enter y else t).seen := by
    rw [List.mem_cons, h.seen i hi]
    split
    · exact List.mem_cons.symm
    · rename_i hnew
      have hne : i ≠ y := by
        rintro rfl
        exact hnew hi
      simp [hne]
  have hvisits : (if y.index < G.chunk.arena.size then t.enter y else t).visits = t.visits := by
    split <;> rfl
  refine ⟨h.size, fun i hi hi' => ?_, hseen, fun i hi hi' hunseen => ?_, ?_, h.succeeded, ?_, ?_⟩
  · rw [hvisits] at hi'
    exact h.hollow i hi hi'
  · rw [hvisits] at hi'
    exact h.unseen i hi hi' fun hmem =>
      hunseen ((hseen i hi).1 (List.mem_cons_of_mem _ ((h.seen i hi).2 hmem)))
  · exact List.forall_mem_cons.2 ⟨hy, h.inside⟩
  · rw [hvisits]
    exact h.passed
  · rw [hvisits]
    exact h.own

/-- The body of a literal that was not seen is walked, and put back. -/
theorem walkBody (hG : ToursRoots G r r') (he : G.Enters r enter enter' T) {body : Block}
    (h : G.At walk t) (hbody : walk.space.arena.body? y = some body) (hseen : y ∉ walk.seen)
    (hold : y.index < G.chunk.arena.size → G.chunk.arena.body? y ≠ none)
    (hbeside : G.chunk.arena.size ≤ y.index → G.beside)
    (htour : (T body (if y.index < G.chunk.arena.size then t.enter y else t)).visits <+:
      G.chunk.tour) :
    G.Follows (Pass.walkLiteral enter y) (Pass.walkLiteral enter' y) (fun _ _ => True) walk
      (T body (if y.index < G.chunk.arena.size then t.enter y else t)) := by
  have hinside : y.index < walk.space.arena.size := Arena.inside_of_body? hbody
  have hmem : y.index < G.chunk.arena.size →
      y ∈ (if y.index < G.chunk.arena.size then t.enter y else t).seen := fun hy => by
    rw [if_pos hy]
    exact List.mem_cons_self
  have hstart := hG.setBody (see h hinside) [] (fun hy => ⟨hold hy, hmem hy⟩) hbeside
  unfold Follows
  rw [Contract.walkLiteral_eq, Contract.walkLiteral_eq, hbody]
  simp only [hseen, if_false]
  rcases he.follows body _ _ hstart htour with hfailed | ⟨heq, hat, -⟩
  · exact .inl hfailed
  · refine .inr ⟨by rw [heq], ?_, trivial⟩
    exact hG.setBody hat _ (fun hy => ⟨hold hy, (he.grows _ _).seen (hmem hy)⟩) hbeside

/-- Nodes at which there is nothing to do: other nodes than literals, and
literals that were seen. -/
theorem literals_idle {l : List ExprId} (h : G.At walk t)
    (hl : ∀ y ∈ l, walk.space.arena.body? y = none ∨ y ∈ walk.seen) :
    G.Follows (l.forM (Pass.walkLiteral enter)) (l.forM (Pass.walkLiteral enter'))
      (fun walk' _ => walk' = walk) walk t := by
  have hrests (enter : Block → StateM (Walk σ ε) Block) :
      l.forM (Pass.walkLiteral enter) walk = ((), walk) := by
    induction l with
    | nil => rfl
    | cons y l ih =>
      rw [List.forall_mem_cons] at hl
      have hy : Pass.walkLiteral enter y walk = ((), walk) := by
        rw [Contract.walkLiteral_eq]
        cases hbody : walk.space.arena.body? y with
        | none => rfl
        | some body =>
          have hseen : y ∈ walk.seen := hl.1.resolve_left (by simp [hbody])
          simp only [hseen, if_true]
      show l.forM (Pass.walkLiteral enter) (Pass.walkLiteral enter y walk).2 = ((), walk)
      rw [hy]
      exact ih hl.2
  exact (Follows.rests (hrests enter) (hrests enter') h).mono fun _ _ _ heq => heq.1

theorem literal_idle (h : G.At walk t) (hy : walk.space.arena.body? y = none ∨ y ∈ walk.seen) :
    G.Follows (Pass.walkLiteral enter y) (Pass.walkLiteral enter' y)
      (fun walk' _ => walk' = walk) walk t :=
  literals_idle (l := [y]) h (List.forall_mem_singleton.2 hy)

/-- **A literal** of the chunk, along the tour. -/
theorem walkLiteral (hG : ToursRoots G r r') (he : G.Enters r enter enter' T) (h : G.At walk t)
    (hy : y.index < G.chunk.arena.size) (hy' : y ∉ G.touched t.visits)
    (htour : (G.chunk.arena.tourLiteral T t y).visits <+: G.chunk.tour) :
    G.Follows (Pass.walkLiteral enter y) (Pass.walkLiteral enter' y) (fun _ _ => True) walk
      (G.chunk.arena.tourLiteral T t y) := by
  unfold Arena.tourLiteral at *
  cases hbody : G.chunk.arena.body? y with
  | none =>
    exact (literal_idle h (.inl (Arena.body?_of_hollow (h.hollow y hy hy') hbody))).mono
      fun _ _ _ _ => trivial
  | some body =>
    rw [hbody] at htour
    by_cases hseen : y ∈ t.seen
    · simp only [hseen, if_true] at htour ⊢
      exact (literal_idle h (.inr ((h.seen y hy).2 hseen))).mono fun _ _ _ _ => trivial
    · simp only [hseen, if_false] at htour ⊢
      have hbody' := (h.unseen y hy hy' hseen).trans hbody
      have hwalk := hG.walkBody he h hbody' (fun hmem => hseen ((h.seen y hy).1 hmem))
        (fun _ => by simp [hbody]) fun hnew => absurd hy (not_lt.2 hnew)
      rw [if_pos hy] at hwalk
      exact hwalk htour

/-- **A root**, along the tour. -/
theorem walkRoot (hG : ToursRoots G r r') (he : G.Enters r enter enter' T) (h : G.At walk t) {s : Stmt}
    (owner : Stmt) (howner : owner.line = s.line)
    (htour : (G.chunk.arena.tourRoot T s t x).visits <+: G.chunk.tour) :
    G.Follows (r.walkRoot enter owner x) (r'.walkRoot enter' owner x) (fun _ _ => True) walk
      (G.chunk.arena.tourRoot T s t x) := by
  obtain ⟨ρ, hr⟩ := hG.ranked
  have hx : x.index < G.chunk.arena.size :=
    hG.inside (htour.subset (List.mem_append_right _ (List.mem_singleton_self (Visit.root x s))))
  have hbelow := hG.untouched htour
  have hinside : ∀ y ∈ G.chunk.arena.descendants x, y.index < G.chunk.arena.size := fun y hy =>
    hr.inside_of_reaches hx (Arena.reaches_of_mem_descendants hy)
  have hfold : (G.chunk.arena.descendants x).foldl (G.chunk.arena.tourLiteral T) t ≤
      G.chunk.arena.tourRoot T s t x := Tour.le_visit _ _
  -- what is below the root is as it was until the root is visited
  have huntouched {t' : Tour} (hle : t' ≤ (G.chunk.arena.descendants x).foldl
      (G.chunk.arena.tourLiteral T) t) : ∀ y ∈ G.chunk.arena.descendants x, y ∉ G.touched t'.visits :=
    fun y hy hmem => hbelow y hy (hG.touched_mono hle.visits hmem)
  -- first the literals below it, one by one
  have hloop : G.Follows ((G.chunk.arena.descendants x).forM (Pass.walkLiteral enter))
      ((G.chunk.arena.descendants x).forM (Pass.walkLiteral enter')) (fun _ _ => True) walk
      ((G.chunk.arena.descendants x).foldl (G.chunk.arena.tourLiteral T) t) := by
    refine Follows.forM (Arena.le_tourLiteral he.grows)
      (fun e y => (Lasting.failure r e).walkLiteral (he.stays e) y)
      (fun y hy walk t hat hle => ?_) h le_rfl
    have hle' := (Arena.le_tourLiteral (a := G.chunk.arena) he.grows t y).trans hle
    exact hG.walkLiteral he hat (hinside y hy) (huntouched hle' y hy)
      ((hle.trans hfold).visits.trans htour)
  have heq := h.descendants_eq hr hx
    (huntouched (Arena.le_foldl_tourLiteral he.grows t (G.chunk.arena.descendants x)))
  -- both walks see the same nodes below it, then the root itself
  refine .below ?_
  rw [heq]
  refine hloop.bind (fun e _ => (Lasting.failure r e).expression x owner) hfold
    fun _ walk₁ hat _ => hG.expression owner howner hat htour fun y hy hbody => ?_
  -- a literal below it was seen when its turn came
  obtain ⟨l₁, l₂, hl⟩ := List.append_of_mem hy
  rw [hl, List.foldl_append, List.foldl_cons]
  exact (Arena.le_foldl_tourLiteral he.grows _ l₂).seen (Arena.mem_seen_tourLiteral he.grows _ hbody)

/-- **What comes before a statement**, along the tour. -/
theorem walkInner (hG : ToursRoots G r r') (he : G.Enters r enter enter' T) (h : G.At walk t) (s : Stmt)
    (htour : (G.chunk.arena.tourInner T s t).visits <+: G.chunk.tour) :
    G.Follows (r.inner enter s) (r'.inner enter' s)
      (fun _ s' => s'.line = s.line ∧ s'.kind.hollow = s.kind.hollow) walk
      (G.chunk.arena.tourInner T s t) := by
  have hroots := Arena.le_foldl_tourRoot (a := G.chunk.arena) (s := s) he.grows
    (s.kind.blocks.foldl (fun t b => T b t) t) s.kind.roots
  refine (he.mapBlocks s.kind h (hroots.visits.trans htour)).bind (fun e kind => ?_) hroots
    fun kind walk₁ hat hhollow => ?_
  · exact (Stays.forM fun x _ => (Lasting.failure r e).walkRoot (he.stays e) _ x).bind
      fun _ => .pure _
  · have heq : kind.roots = s.kind.roots := by
      rw [← StmtKind.roots_hollow, hhollow, StmtKind.roots_hollow]
    show G.Follows (kind.roots.forM (r.walkRoot enter { s with kind }) >>= fun _ =>
        Pure.pure { s with kind })
      (kind.roots.forM (r'.walkRoot enter' { s with kind }) >>= fun _ => Pure.pure { s with kind })
      _ walk₁ _
    rw [heq]
    have hloop := Follows.forM (T := G.chunk.arena.tourRoot T s) (f := r.walkRoot enter { s with kind })
      (Arena.le_tourRoot he.grows) (fun e x => (Lasting.failure r e).walkRoot (he.stays e) _ x)
      (fun x _ walk t hat hle => hG.walkRoot he hat { s with kind } rfl (hle.visits.trans htour)) hat
      le_rfl
    exact hloop.bind (fun _ _ => .pure _) le_rfl fun _ _ hat _ => .pure hat ⟨rfl, hhollow⟩

end ToursRoots

namespace Toured

open Guide

variable {G : Guide σ ε} {r r' : Pass σ ε} {walk : Walk σ ε} {t : Tour}
variable {enter enter' : Block → StateM (Walk σ ε) Block} {T : Block → Tour → Tour}

/-- **A list**, along the tour. -/
theorem walkSlots (hG : Toured G r r') (he : G.Enters r enter enter' T) : ∀ (visits : ℕ) (l : Block)
    (behind slots : List Slot) {walk : Walk σ ε} {t : Tour}, G.At walk t →
    G.Ahead walk slots l → l.length ≤ visits →
    (G.chunk.arena.tourList T l t).visits <+: G.chunk.tour →
    G.Follows (r.walkSlots enter visits behind slots) (r'.walkSlots enter' visits behind slots)
      (fun _ _ => True) walk (G.chunk.arena.tourList T l t)
  | visits, [], behind, slots, walk, t, h, hahead, _, _ => by
    have hfresh : ∀ slot ∈ slots, slot.fresh := by
      obtain ⟨skipped, hfresh, rfl | ⟨_, _, _, _, hl, -⟩⟩ := hahead
      · simpa [Block.slots] using hfresh
      · cases hl
    rw [walkSlots_skip hfresh, walkSlots_skip hfresh]
    exact .pure h trivial
  | 0, s :: rest, _, _, _, _, _, _, hle, _ => by simp at hle
  | visits + 1, s :: rest, behind, slots, walk, t, h, hahead, hle, htour => by
    have hrest := Arena.le_tourList (a := G.chunk.arena) he.grows rest
      ((G.chunk.arena.tourInner T s t).visit (.statement s rest))
    have hvisit := Tour.le_visit (G.chunk.arena.tourInner T s t) (.statement s rest)
    have hstatement := hrest.visits.trans htour
    have hstays (e : ε) (s' : Stmt) {done after : List Slot} :
        Stays (fun walk : Walk σ ε => walk.failure = some e) (do
          let cursor : Cursor := ⟨done, ⟨s', false⟩, after⟩
          let cursor ← r.visit cursor
          r.walkSlots enter visits (cursor.focus :: cursor.before) cursor.after) :=
      ((Lasting.failure r e).statement _).bind fun c =>
        (Lasting.failure r e).walkSlots (he.stays e) visits _ _
    obtain ⟨skipped, hfresh, hslots⟩ := hahead
    rcases hslots with hslots | ⟨_, s', _, inserted, hl, hinserted, hstands, hslots⟩
    · rw [hslots, Block.slots, List.map_cons, walkSlots_visit hfresh, walkSlots_visit hfresh]
      refine (hG.walkInner he h s (hvisit.visits.trans hstatement)).bind (fun e s' => hstays e s')
        (hvisit.trans hrest) fun s' walk₁ hat hsame => ?_
      obtain ⟨hline, hhollow⟩ := hsame
      refine (hG.statement hat hstatement hline hhollow fun x hx =>
        (Arena.mem_tourInner (a := G.chunk.arena) he.grows t hx).2).bind
        (fun e c => (Lasting.failure r e).walkSlots (he.stays e) visits _ _) hrest
        fun c walk₂ hat₂ hahead => ?_
      exact hG.walkSlots he visits rest _ _ hat₂ hahead (Nat.le_of_succ_le_succ hle) htour
    · obtain ⟨rfl, rfl⟩ := List.cons.inj hl
      rw [hslots, walkSlots_visit hfresh, walkSlots_visit hfresh]
      refine (hG.inner he h hstands hstatement).bind (fun e s' => hstays e s')
        (hvisit.trans hrest) fun s'' walk₁ _ hinner => ?_
      obtain ⟨hidle, hat⟩ := hinner
      -- what stands in place of another statement stays as it is
      refine (Follows.visit_idle (hidle _ rfl).1 (hidle _ rfl).2 hat).bind (fun e c =>
        (Lasting.failure r e).walkSlots (he.stays e) visits _ _) hrest fun c walk₂ hat₂ hafter => ?_
      obtain ⟨-, rfl⟩ := hafter
      exact hG.walkSlots he visits rest _ _ hat₂ ⟨inserted, hinserted, .inl rfl⟩
        (Nat.le_of_succ_le_succ hle) htour

/-- **The walk of lists**, along the tour of lists. -/
theorem walkBlock (hG : Toured G r r') (d : ℕ) :
    G.Enters r (r.walkBlock d) (r'.walkBlock d) (G.chunk.arena.tour d) := by
  refine ⟨fun hP => hP.walkBlock d, Arena.le_tour _ d, ?_⟩
  induction d with
  | zero =>
    exact fun block walk t h _ => .inr ⟨rfl, ⟨h.size, h.hollow, h.seen, h.unseen, h.inside,
      h.succeeded, h.passed, h.own⟩, trivial⟩
  | succ d ih =>
    intro block walk t h htour
    have he : G.Enters r (r.walkBlock d) (r'.walkBlock d) (G.chunk.arena.tour d) :=
      ⟨fun hP => hP.walkBlock d, Arena.le_tour _ d, ih⟩
    rw [Pass.walkBlock, Pass.walkBlock]
    exact (hG.walkSlots he block.length block [] _ h ⟨[], by simp, .inl rfl⟩ le_rfl htour).bind
      (fun _ _ => .pure _) le_rfl fun _ _ hat _ => .pure hat trivial

/-- **A run fails as the first visit of the tour that fails.** If none does,
the other pass runs alike, and the guide holds of what is left. -/
theorem run (hG : Toured G r r') {state : σ} (hown : G.own ⟨G.chunk.arena, state⟩ []) :
    (r.run state G.chunk).failure = G.chunk.tour.findSome? G.fails ∧
      (G.chunk.tour.findSome? G.fails = none → r'.run state G.chunk = r.run state G.chunk ∧
        ∃ walk t, G.At walk t ∧ t.visits = G.chunk.tour ∧
          walk.space = ⟨(r.run state G.chunk).chunk.arena, (r.run state G.chunk).state⟩) := by
  have hstart : G.At (.start ⟨G.chunk.arena, state⟩) .start :=
    ⟨le_rfl, fun _ _ _ => rfl, fun _ _ => Iff.rfl, fun _ _ _ _ => rfl, by simp [Walk.start], rfl, rfl, hown⟩
  have hwalk := (hG.walkBlock (depth G.chunk)).follows G.chunk.body _ _ hstart List.prefix_rfl
  rcases hwalk with ⟨e, hfailure, hfirst⟩ | ⟨heq, hat, -⟩
  · have hfirst : G.chunk.tour.findSome? G.fails = some e := hfirst
    exact ⟨hfailure.trans hfirst.symm, fun hnone => by simp [hnone] at hfirst⟩
  · refine ⟨hat.succeeded.trans hat.passed.symm, fun _ => ⟨?_, _, _, hat, rfl, rfl⟩⟩
    simp only [Pass.run, StateT.run, heq]

end Toured

end Pass

end LuaSugar
