import Mathlib
import LuaSugar.Desugar
import LuaSugar.Proofs.Syntax.Growth
import LuaSugar.Proofs.Pass.Building
/-!
# Soundness under passes

A chunk stays well-formed and ranked under a pass if the callbacks see to
it for what they touch. A world is the arena with ranks for its ids. The
ranks of old ids never change; a new node is ranked above what it refers
to and below the place it is made for, which exists because rationals are
dense. The frame of a list is such a bound: all ids in it rank below, and
a list that has the body of a function literal under way is bounded by the
literal's rank.

Two things are carried along for those who ask: what may be assigned to,
which is in the vocabulary, and that returns stand last in their lists.
-/

namespace LuaSugar

/-! ## Returns -/

def StmtKind.isReturn : StmtKind → Bool
  | .ret _ => true
  | _ => false

@[simp] theorem StmtKind.isReturn_hollow (kind : StmtKind) :
    kind.hollow.isReturn = kind.isReturn := by
  cases kind <;> rfl

/-- No statement follows a return. -/
def Block.ReturnsLast (block : List Stmt) : Prop :=
  block.IsChain fun s _ => s.kind.isReturn = false

/-- Returns stand last in the lists of a statement. -/
def StmtKind.Orderly (kind : StmtKind) : Prop := ∀ b ∈ kind.blocks, Block.ReturnsLast b

/-- Returns stand last at every depth. -/
def Block.Orderly (block : List Stmt) : Prop :=
  Block.ReturnsLast block ∧ Block.Everywhere StmtKind.Orderly block

def Expr.Orderly : Expr → Prop
  | .atom (.func func) => Block.Orderly func.body
  | _ => True

theorem Block.ReturnsLast.of_hollow {l l' : List Stmt}
    (h : l'.map (fun s => s.kind.hollow) = l.map fun s => s.kind.hollow)
    (hl : Block.ReturnsLast l) : Block.ReturnsLast l' := by
  have hreturn : ∀ l : List Stmt, Block.ReturnsLast l ↔
      (l.map fun s => s.kind.hollow).IsChain fun k _ => k.isReturn = false := by
    intro l
    simp [Block.ReturnsLast, List.isChain_map]
  rw [hreturn] at hl ⊢
  rwa [h]

/-! ## Worlds -/

/-- An arena with ranks for its ids. -/
structure Ranking (V : Vocabulary) where
  arena : Arena
  rank : ExprId → ℚ

namespace Ranking

variable {V : Vocabulary}

/-- The ranks of old ids stay, what statements ask of nodes is kept, and no
node becomes one to assign to. -/
structure Before (w w' : Ranking V) : Prop where
  size : w.arena.size ≤ w'.arena.size
  rank : ∀ i : ExprId, i.index < w.arena.size → w'.rank i = w.rank i
  keeps : w.arena.Keeps V w'.arena
  other : ∀ i : ExprId, i.index < w.arena.size → (w.arena.get i).isAssignable = false →
    (w'.arena.get i).isAssignable = false

instance : Preorder (Ranking V) where
  le := Before
  le_refl w := ⟨le_rfl, fun _ _ => rfl, .refl V _, fun _ _ => id⟩
  le_trans _ _ _ h h' := ⟨h.size.trans h'.size, fun i hi =>
    (h'.rank i (hi.trans_le h.size)).trans (h.rank i hi), h.keeps.trans h'.keeps,
    fun i hi ha => h'.other i (hi.trans_le h.size) (h.other i hi ha)⟩

/-- An id inside the arena that ranks below a bound. -/
def Below (w : Ranking V) (B : ℚ) (x : ExprId) : Prop := x.index < w.arena.size ∧ w.rank x < B

variable {w w' : Ranking V} {B : ℚ} {x : ExprId}

theorem Below.mono (h : w ≤ w') (hx : w.Below B x) : w'.Below B x :=
  ⟨hx.1.trans_le h.size, by rw [h.rank x hx.1]; exact hx.2⟩

/-- There is room between some ids and a bound above them. -/
theorem exists_between_ids (w : Ranking V) : ∀ {l : List ExprId}, (∀ x ∈ l, w.rank x < B) →
    ∃ r < B, ∀ x ∈ l, w.rank x < r
  | [], _ => ⟨B - 1, by linarith, by simp⟩
  | x :: l, h => by
    rw [List.forall_mem_cons] at h
    obtain ⟨r, hr, hl⟩ := w.exists_between_ids h.2
    obtain ⟨q, hq, hqB⟩ := exists_between h.1
    refine ⟨max q r, max_lt hqB hr, List.forall_mem_cons.2 ⟨lt_max_of_lt_left hq, ?_⟩⟩
    exact fun y hy => lt_max_of_lt_right (hl y hy)

end Ranking

/-! ## Sound arenas and statements -/

section Sound

variable {V : Vocabulary} {R : Prop}

/-- The arena of a world: ranked and well-formed. Where `R` holds, returns
stand last. -/
structure Ranking.Sound (R : Prop) (w : Ranking V) (a : Arena) : Prop where
  arena : a = w.arena
  ranked : a.Ranked w.rank
  nodes : ∀ i, V.Node a (a.get i)
  targets : ∀ i op t v, a.get i = .arith (.assign op t v) → V.target (a.get t)
  orderly : R → ∀ i, (a.get i).Orderly

/-- A statement of a list with a bound. -/
structure Ranking.Fits (R : Prop) (w : Ranking V) (B : ℚ) (s : Stmt) : Prop where
  below : ∀ x ∈ s.kind.ids, w.Below B x
  sound : s.kind.Throughout (V.Stmt w.arena)
  orderly : R → s.kind.Throughout StmtKind.Orderly

/-- A vocabulary that passes get along with: it admits the words they use,
and what they overwrite may be assigned to only if anything may. -/
structure Vocabulary.Stable (V : Vocabulary) : Prop where
  target : ∀ e, e.isAssignable → V.target e
  other : ∀ e e', V.target e → e.isAssignable = false → V.target e'
  require : V.name "require"
  holder : ∀ count, V.name (Import.holder count)
  argument : V.name "v"
  self : V.name "self"

namespace Ranking.Sound

variable {w w' : Ranking V} {a : Arena} {B : ℚ} {i : ExprId} {e : Expr}

theorem size_eq (h : w.Sound R a) : w.arena.size = a.size := by rw [h.arena]

/-- One node is new or another than before, and refers to what ranks
below it. -/
theorem update (h : w.Sound R a) {b : Arena} (rank : ExprId → ℚ) (hsize : a.size ≤ b.size)
    (hrank : ∀ j : ExprId, j.index < a.size → rank j = w.rank j)
    (hget : ∀ j, b.get j = a.get j ∨ j = i ∧ b.get j = e) (hkeeps : a.Keeps V b)
    (hrefs : ∀ x ∈ e.refs, x.index < a.size ∧ w.rank x < rank i) (hnode : V.Node a e)
    (htarget : ∀ op t v, e = .arith (.assign op t v) → V.target (a.get t))
    (horder : R → e.Orderly)
    (hother : ∀ j : ExprId, j.index < a.size → (a.get j).isAssignable = false →
      (b.get j).isAssignable = false) :
    w ≤ ⟨b, rank⟩ ∧ Ranking.Sound R (⟨b, rank⟩ : Ranking V) b := by
  obtain rfl := h.arena
  -- references inside, ranks below, nodes, targets and the order: each for
  -- the node `i` and for the others
  refine ⟨⟨hsize, hrank, hkeeps, hother⟩, rfl, ⟨fun j k hjk => ?_, fun j k hjk => ?_⟩, fun j => ?_,
    fun j op t v hj => ?_, fun hR j => ?_⟩
  · unfold Arena.Refers at hjk
    rcases hget j with hj | ⟨-, hj⟩
    · rw [hj] at hjk
      exact (h.ranked.inside j k hjk).trans_le hsize
    · rw [hj] at hjk
      exact (hrefs k hjk).1.trans_le hsize
  · unfold Arena.Refers at hjk
    rcases hget j with hj | ⟨rfl, hj⟩
    · rw [hj] at hjk
      show rank k < rank j
      rw [hrank k (h.ranked.inside j k hjk), hrank j (Arena.inside_of_refers hjk)]
      exact h.ranked.lt j k hjk
    · rw [hj] at hjk
      show rank k < rank j
      rw [hrank k (hrefs k hjk).1]
      exact (hrefs k hjk).2
  · rcases hget j with hj | ⟨-, hj⟩
    · rw [hj]
      exact Vocabulary.Node.mono (.refl V) hkeeps (h.nodes j)
    · rw [hj]
      exact Vocabulary.Node.mono (.refl V) hkeeps hnode
  · rcases hget j with hj' | ⟨-, hj'⟩
    · rw [hj'] at hj
      exact hkeeps.target t (h.targets j op t v hj)
    · rw [hj'] at hj
      exact hkeeps.target t (htarget op t v hj)
  · rcases hget j with hj | ⟨-, hj⟩
    · rw [hj]
      exact h.orderly hR j
    · rw [hj]
      exact horder hR

/-- **A new node** ranks between what it refers to and the bound. -/
theorem alloc (hV : V.Stable) (h : w.Sound R a) (hrefs : ∀ x ∈ e.refs, w.Below B x)
    (hnode : V.Node a e) (htarget : ∀ op t v, e = .arith (.assign op t v) → V.target (a.get t))
    (horder : R → e.Orderly) :
    Builds (Ranking.Sound R) (Build.alloc e)
      (fun w' i => w'.Below B i ∧ w'.arena.get i = e ∧ a.Extends w'.arena) w a := by
  obtain rfl := h.arena
  -- the new node is ranked between what it refers to and the bound
  obtain ⟨r, hr, hbelow⟩ := w.exists_between_ids fun x hx => (hrefs x hx).2
  have hkeeps : w.arena.Keeps V (w.arena.alloc e).2 := by
    refine ⟨fun j hj => ?_, fun j hj => ?_⟩
    · rwa [Arena.get_alloc_of_lt e (Arena.inside_of_get_ne j fun hn => by
        simp [hn, Expr.isCall] at hj)]
    · rcases Arena.get_alloc_cases w.arena e j with hj' | ⟨rfl, -⟩
      · rwa [hj']
      · rw [Arena.get_of_size_le (i := ⟨w.arena.size⟩) le_rfl] at hj
        exact hV.other _ _ hj rfl
  let rank : ExprId → ℚ := fun j => if j.index = w.arena.size then r else w.rank j
  have hnew : rank ⟨w.arena.size⟩ = r := if_pos rfl
  obtain ⟨hle, hsound⟩ := h.update rank (i := ⟨w.arena.size⟩)
    (Arena.extends_alloc w.arena e).size_le (fun j hj => if_neg (by omega))
    (Arena.get_alloc_cases w.arena e) hkeeps
    (fun x hx => ⟨(hrefs x hx).1, by rw [hnew]; exact hbelow x hx⟩) hnode htarget horder
    fun j hj ha => by rwa [Arena.get_alloc_of_lt e hj]
  refine ⟨_, hle, hsound, ⟨?_, ?_⟩, Arena.get_alloc_self w.arena e, Arena.extends_alloc _ e⟩
  · show w.arena.size < (w.arena.alloc e).2.size
    rw [Arena.size_alloc]
    omega
  · exact hnew.trans_lt hr

/-- **An overwritten node** refers to what ranks below it, and is not one
to assign to. -/
theorem set (h : w.Sound R a) (hrefs : ∀ x ∈ e.refs, w.Below (w.rank i) x) (hnode : V.Node a e)
    (htarget : ∀ op t v, e = .arith (.assign op t v) → V.target (a.get t)) (horder : R → e.Orderly)
    (hcall : (a.get i).isCall → e.isCall) (hkeep : V.target (a.get i) → V.target e)
    (hother : e.isAssignable = false) :
    w ≤ ⟨a.set i e, w.rank⟩ ∧
      Ranking.Sound R (⟨a.set i e, w.rank⟩ : Ranking V) (a.set i e) := by
  have hkeeps : a.Keeps V (a.set i e) := by
    refine ⟨fun j hj => ?_, fun j hj => ?_⟩
    · rcases Arena.get_set_cases a i j e with hj' | ⟨rfl, hj'⟩
      · rwa [hj']
      · rw [hj']
        exact hcall hj
    · rcases Arena.get_set_cases a i j e with hj' | ⟨rfl, hj'⟩
      · rwa [hj']
      · rw [hj']
        exact hkeep hj
  exact h.update w.rank (Arena.size_set a i e).ge (fun _ _ => rfl)
    (fun j => Arena.get_set_cases a i j e) hkeeps
    (fun x hx => ⟨h.size_eq ▸ (hrefs x hx).1, (hrefs x hx).2⟩) hnode htarget horder
    fun j _ ha => by
      rcases Arena.get_set_cases a i j e with hj | ⟨-, hj⟩
      · rwa [hj]
      · rw [hj]
        exact hother

/-- Another body for a function literal. -/
theorem setBody (hV : V.Stable) (h : w.Sound R a) (i : ExprId) (body : Block)
    (hbody : ∀ s ∈ body, w.Fits R (w.rank i) s) (hlast : R → Block.ReturnsLast body) :
    ∃ w', w ≤ w' ∧ w'.rank = w.rank ∧ w'.Sound R (a.setBody i body) := by
  unfold Arena.setBody
  split
  · rename_i func hget
    have hset := h.set (i := i) (e := .atom (.func { func with body })) ?_ ?_ (by simp) ?_
      (by simp [hget, Expr.isCall]) (fun ht => hV.other _ _ ht (by rw [hget]; rfl)) rfl
    · exact ⟨_, hset.1, rfl, hset.2⟩
    · intro x hx
      obtain ⟨s, hs, hx⟩ := Block.mem_ids_iff.1 (show x ∈ Block.ids body from hx)
      exact (hbody s hs).below x hx
    · have hn := h.nodes i
      rw [hget] at hn
      refine ⟨hn.1, Vocabulary.block_iff.2 fun s hs => ?_⟩
      rw [h.arena]
      exact (hbody s hs).sound
    · exact fun hR => ⟨hlast hR, Block.everywhere_iff.2 fun s hs => (hbody s hs).orderly hR⟩
  · exact ⟨w, le_rfl, rfl, h⟩

end Ranking.Sound

/-! ## Lists with a bound -/

namespace Ranking.Fits

variable {w w' : Ranking V} {B : ℚ} {s s' : Stmt}

theorem mono (h : w ≤ w') (hs : w.Fits R B s) : w'.Fits R B s :=
  ⟨fun x hx => (hs.below x hx).mono h,
    ⟨Vocabulary.Stmt.mono (.refl V) h.keeps hs.sound.1, fun b hb =>
      Vocabulary.Block.mono (.refl V) h.keeps (hs.sound.2 b hb)⟩, hs.orderly⟩

theorem root {x : ExprId} (hs : w.Fits R B s) (hx : x ∈ s.kind.roots) : w.Below B x :=
  hs.below x (StmtKind.mem_ids.2 (.inl hx))

/-- The lists of a statement have its bound. -/
theorem nested {b : Block} (hs : w.Fits R B s) (hb : b ∈ s.kind.blocks) :
    (R → Block.ReturnsLast b) ∧ ∀ t ∈ b, w.Fits R B t := by
  refine ⟨fun hR => (hs.orderly hR).1 b hb, fun t ht => ⟨fun x hx => ?_, ?_, fun hR => ?_⟩⟩
  · exact hs.below x (StmtKind.mem_ids.2 (.inr ⟨b, hb, Block.mem_ids_iff.2 ⟨t, ht, hx⟩⟩))
  · exact Block.everywhere_iff.1 (hs.sound.2 b hb) t ht
  · exact Block.everywhere_iff.1 ((hs.orderly hR).2 b hb) t ht

/-- A statement with a bound from its lists. -/
theorem of_nested (hroots : ∀ x ∈ s.kind.roots, w.Below B x) (hkind : V.Stmt w.arena s.kind)
    (hb : ∀ b ∈ s.kind.blocks, (R → Block.ReturnsLast b) ∧ ∀ t ∈ b, w.Fits R B t) :
    w.Fits R B s := by
  refine ⟨fun x hx => ?_, ⟨hkind, fun b hm => ?_⟩, fun hR => ⟨fun b hm => (hb b hm).1 hR,
    fun b hm => ?_⟩⟩
  · rcases StmtKind.mem_ids.1 hx with hx | ⟨b, hm, hx⟩
    · exact hroots x hx
    · obtain ⟨t, ht, hx⟩ := Block.mem_ids_iff.1 hx
      exact ((hb b hm).2 t ht).below x hx
  · exact Vocabulary.block_iff.2 fun t ht => ((hb b hm).2 t ht).sound
  · exact Block.everywhere_iff.2 fun t ht => ((hb b hm).2 t ht).orderly hR

/-- A statement without lists. -/
theorem simple (hroots : ∀ x ∈ s.kind.roots, w.Below B x) (hkind : V.Stmt w.arena s.kind)
    (hblocks : s.kind.blocks = []) : w.Fits R B s :=
  of_nested hroots hkind (by simp [hblocks])

end Ranking.Fits

/-- The statements of a function literal rank below it. -/
theorem Ranking.Sound.body {w : Ranking V} {a : Arena} {i : ExprId} {body : Block}
    (h : w.Sound R a) (hbody : a.body? i = some body) :
    (R → Block.ReturnsLast body) ∧ ∀ s ∈ body, w.Fits R (w.rank i) s := by
  obtain rfl := h.arena
  unfold Arena.body? at hbody
  split at hbody
  · rename_i func hget
    obtain rfl := Option.some.inj hbody
    have hnode := h.nodes i
    have horder (hR : R) := h.orderly hR i
    rw [hget] at hnode horder
    refine ⟨fun hR => (horder hR).1, fun s hs => ⟨fun x hx => ?_, ?_, fun hR => ?_⟩⟩
    · have hrefers : w.arena.Refers i x := by
        unfold Arena.Refers
        rw [hget]
        exact List.mem_append_right _ (Block.mem_ids_iff.2 ⟨s, hs, hx⟩)
      exact ⟨h.ranked.inside i x hrefers, h.ranked.lt i x hrefers⟩
    · exact Block.everywhere_iff.1 hnode.2 s hs
    · exact Block.everywhere_iff.1 (horder hR).2 s hs
  · cases hbody

/-! ## The contract -/

/-- What a pass has to show of its callbacks. -/
structure Pass.Keeps {σ ε : Type} (V : Vocabulary) (R : Prop) (r : Pass σ ε) : Prop where
  first : r.FailsFirst
  expression : ∀ {w : Ranking V} {B x} (owner : Stmt) {space}, w.Sound R space.arena →
    w.Below B x →
    Edits (Ranking.Sound R) (r.expression x owner) (fun _ _ => True) w space
  statement : ∀ {w : Ranking V} {B} (c : Cursor) {space}, w.Sound R space.arena →
    (∀ slot ∈ c.slots, w.Fits R B slot.stmt) →
    (R → Block.ReturnsLast (c.slots.map Slot.stmt)) →
    Edits (Ranking.Sound R) (r.statement c) (fun w' c' =>
      (∀ slot ∈ c'.slots, w'.Fits R B slot.stmt) ∧
      (R → Block.ReturnsLast (c'.slots.map Slot.stmt)) ∧
      (c'.after.countP fun slot => !slot.fresh) ≤ c.after.countP fun slot => !slot.fresh) w space

variable {σ ε : Type} {r : Pass σ ε}

/-- **Soundness as a contract.** -/
def Pass.Keeps.contract (hV : V.Stable) (hr : r.Keeps V R) :
    Pass.Contract r (Ranking V) ℚ where
  inv w walk := w.Sound R walk.space.arena
  todo w _ B s := w.Fits R B s
  half w _ B s := w.Fits R B s
  done w B s := w.Fits R B s
  rootTodo w _ B x := w.Below B x
  rootDone _ _ _ := True
  below w _ B x := w.Below B x
  seen _ _ := True
  within B _ := B
  shape l := R → Block.ReturnsLast l
  todo_mono := Ranking.Fits.mono
  half_mono := Ranking.Fits.mono
  done_mono := Ranking.Fits.mono
  rootDone_mono _ _ := trivial
  below_mono := Ranking.Below.mono
  seen_mono _ _ := trivial
  shape_of_hollow h hl hR := (hl hR).of_hollow h
  exhausted h hs := ⟨hs, h⟩
  nested h hb := h.nested hb
  half_of_nested {w d B s s'} h hhollow _ hb := by
    have hroots : s'.kind.roots = s.kind.roots := by
      rw [← StmtKind.roots_hollow, hhollow, StmtKind.roots_hollow]
    refine .of_nested (fun x hx => h.root (hroots ▸ hx)) ?_ hb
    rw [← Vocabulary.stmt_hollow, hhollow, Vocabulary.stmt_hollow]
    exact h.sound.1
  root h hx := h.root hx
  below_of_root {w walk d B x y} h hx hy := by
    have hreach := Arena.reaches_of_mem_descendants hy
    refine ⟨h.size_eq ▸ h.ranked.inside_of_reaches (h.size_eq ▸ hx.1) hreach, ?_⟩
    rcases Relation.reflTransGen_iff_eq_or_transGen.1 hreach with rfl | hlt
    · exact hx.2
    · exact (h.ranked.lt_of_transGen hlt).trans hx.2
  seen_of_inv _ _ _ := trivial
  literal {w walk d B x body} h hx _ hbody := by
    have hfits := h.body hbody
    obtain ⟨w', hle, hrank, hsound⟩ := h.setBody hV x [] (by simp)
      fun _ => List.isChain_nil
    refine ⟨w', w.rank x, hle, hsound, ⟨hfits.1, fun s hs => (hfits.2 s hs).mono hle⟩, ?_⟩
    intro w₁ walk₁ body₁ hle₁ hsound₁ hbody₁
    have hrank₁ : w₁.rank x = w.rank x := by
      rw [hle₁.rank x (hx.1.trans_le hle.size), hrank]
    obtain ⟨w₂, hle₂, -, hsound₂⟩ := hsound₁.setBody hV x body₁
      (fun s hs => hrank₁ ▸ hbody₁.2 s hs) hbody₁.1
    exact ⟨w₂, hle₂, trivial, hsound₂⟩
  expression owner _ _ hx h _ :=
    .attempt h (hr.expression owner h (hx.mono ‹_›)) fun _ _ => trivial
  statement {w walk d B} c h hfocus _ hbefore hafter hshape := by
    have hslots : ∀ slot ∈ c.slots, w.Fits R B slot.stmt :=
      Cursor.forall_slots.2 ⟨List.forall_mem_cons.2 ⟨hfocus, hbefore⟩, by simpa using hafter⟩
    rw [hr.first.visit]
    refine (Pass.Leads.attempt h (hr.statement c h hslots hshape) fun w' hle => ?_).mono
      fun w' c' _ hc' => ?_
    · exact ⟨fun slot hs => (hslots slot hs).mono hle, hshape, le_rfl⟩
    · obtain ⟨hdone, hahead⟩ := Cursor.forall_slots.1 hc'.1
      exact ⟨hdone, by simpa using hahead, hc'.2⟩

/-! ## Sound chunks -/

/-- A chunk with a sound arena, whose body is well-formed inside it. -/
structure Chunk.Sound (V : Vocabulary) (R : Prop) (c : Chunk) : Prop where
  arena : ∃ rank, Ranking.Sound R (⟨c.arena, rank⟩ : Ranking V) c.arena
  inside : ∀ x ∈ Block.ids c.body, x.index < c.arena.size
  body : V.Block c.arena c.body
  orderly : R → Block.Orderly c.body

/-- What the body of a chunk leads to. -/
def Chunk.Reaches (c : Chunk) (i : ExprId) : Prop := ∃ x ∈ Block.ids c.body, c.arena.Reaches x i

theorem Chunk.Reaches.trans {c : Chunk} {i j : ExprId} (hi : c.Reaches i)
    (hij : c.arena.Refers i j) : c.Reaches j := by
  obtain ⟨x, hx, hxi⟩ := hi
  exact ⟨x, hx, hxi.tail hij⟩

/-- A finite arena has a bound above all its ranks. -/
theorem exists_bound (a : Arena) (rank : ExprId → ℚ) :
    ∃ B, ∀ i : ExprId, i.index < a.size → rank i < B := by
  obtain ⟨M, hM⟩ := ((Finset.range a.size).image fun k => rank ⟨k⟩).exists_le
  refine ⟨M + 1, fun i hi => ?_⟩
  have hle := hM (rank i) (Finset.mem_image.2 ⟨i.index, Finset.mem_range.2 hi, rfl⟩)
  linarith

/-- The statements of a sound chunk have a bound above all ranks. -/
theorem Chunk.Sound.fits {c : Chunk} {B : ℚ} (h : c.Sound V R) {rank : ExprId → ℚ}
    (hB : ∀ i : ExprId, i.index < c.arena.size → rank i < B) :
    ∀ s ∈ c.body, Ranking.Fits R (⟨c.arena, rank⟩ : Ranking V) B s := by
  refine fun s hs => ⟨fun x hx => ?_, Vocabulary.block_iff.1 h.body s hs,
    fun hR => Block.everywhere_iff.1 (h.orderly hR).2 s hs⟩
  have hinside := h.inside x (Block.mem_ids_iff.2 ⟨s, hs, hx⟩)
  exact ⟨hinside, hB x hinside⟩

/-- **A pass keeps chunks sound**, also when it fails. -/
theorem Pass.Keeps.run (hV : V.Stable) (hr : r.Keeps V R) {c : Chunk} (h : c.Sound V R)
    (state : σ) : (r.run state c).chunk.Sound V R := by
  obtain ⟨rank, hsound⟩ := h.arena
  obtain ⟨B, hB⟩ := exists_bound c.arena rank
  obtain ⟨w', walk', -, hinv, harena, -, -, hlast, hdone⟩ :=
    Pass.Contract.run (K := hr.contract hV) (w := ⟨c.arena, rank⟩) (f := B) state
      hsound (fun hR => (h.orderly hR).1) (h.fits hB)
  have hinv : w'.Sound R (r.run state c).chunk.arena := harena ▸ hinv
  have hfits : ∀ s ∈ (r.run state c).chunk.body, w'.Fits R B s := hdone
  refine ⟨⟨w'.rank, ?_⟩, fun x hx => ?_, ?_, fun hR => ⟨hlast hR, ?_⟩⟩
  · convert hinv using 1
    rw [hinv.arena]
  · obtain ⟨s, hs, hx⟩ := Block.mem_ids_iff.1 hx
    exact hinv.size_eq ▸ ((hfits s hs).below x hx).1
  · refine Vocabulary.block_iff.2 fun s hs => ?_
    rw [hinv.arena]
    exact (hfits s hs).sound
  · exact Block.everywhere_iff.2 fun s hs => (hfits s hs).orderly hR

end Sound

end LuaSugar
