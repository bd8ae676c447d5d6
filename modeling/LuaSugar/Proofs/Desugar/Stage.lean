import Mathlib
import LuaSugar.Proofs.Syntax.Growth
import LuaSugar.Proofs.Desugar.Making
/-!
# Stages of desugaring

Five passes run one after the other, and each removes one construct. So
what a chunk may hold before a pass and after it differs by one: it is
free of what `k` passes remove before, and of what `k + 1` remove after.

While the pass runs, both kinds stand side by side. A `Stage` says which
ids are within how many lists of the end: those within none are
**finished**, and what they lead to is finished as well; those within
`d + 1` may lead to literals whose bodies have to be walked `d` lists
deep. A literal counts as finished while its body is out for its visit,
since it is empty then, and the visit puts back a finished one.
-/

namespace LuaSugar

/-! ## What the passes remove -/

/-- How many passes a statement may outlast; plain statements outlast
all. -/
def StmtKind.lasts : StmtKind → ℕ
  | .compoundAssign _ _ _ => 1
  | .importFrom _ _ => 2
  | .intrinsic _ _ => 3
  | _ => 5

/-- How many passes a node may outlast. -/
def Expr.lasts : Expr → ℕ
  | .arith (.assign _ _ _) => 0
  | .atom (.element _) => 4
  | _ => 5

/-- A statement is none of those that the first `k` passes remove. -/
def StmtKind.Free (k : ℕ) (kind : StmtKind) : Prop := k ≤ kind.lasts

def Expr.Free (k : ℕ) (e : Expr) : Prop := k ≤ e.lasts

variable {k : ℕ}

theorem StmtKind.Free.of_succ {kind : StmtKind} (h : kind.Free (k + 1)) : kind.Free k :=
  Nat.le_of_succ_le h

theorem Expr.Free.of_succ {e : Expr} (h : e.Free (k + 1)) : e.Free k := Nat.le_of_succ_le h

/-! ## Stages -/

/-- An arena, and the ids within so many lists of the end. -/
structure Stage where
  arena : Arena
  within : ℕ → Set ExprId

/-- What is within no list of the end has outlasted the pass. -/
def due (k : ℕ) : ℕ → ℕ
  | 0 => k + 1
  | _ + 1 => k

namespace Stage

/-- A statement within `d` lists of the end. -/
def Todo (k : ℕ) (w : Stage) : ℕ → Stmt → Prop
  | 0, s => s.kind.Throughout (StmtKind.Free (k + 1)) ∧ ∀ x ∈ s.kind.ids, x ∈ w.within 0
  | d + 1, s => s.kind.Free k ∧ (∀ x ∈ s.kind.roots, x ∈ w.within (d + 1)) ∧
    ∀ b ∈ s.kind.blocks, ∀ t ∈ b, w.Todo k d t

/-- A node within `d` lists of the end. -/
structure Node (k : ℕ) (w : Stage) (d : ℕ) (e : Expr) : Prop where
  free : e.Free (due k d)
  children : ∀ x ∈ e.children, x ∈ w.within d
  body : ∀ func, e = .atom (.func func) → ∀ s ∈ func.body, w.Todo k (d - 1) s

/-- Ids are within the arena, and their nodes are what they say. -/
structure Good (k : ℕ) (w : Stage) (a : Arena) : Prop where
  arena : a = w.arena
  inside : ∀ d, ∀ x ∈ w.within d, x.index < a.size
  finished : ∀ d, w.within 0 ⊆ w.within d
  nodes : ∀ d, ∀ x ∈ w.within d, w.Node k d (a.get x)

/-- Stages advance: nothing gets further from the end, and what has not
come to it is still the same from outside. -/
structure Before (w w' : Stage) : Prop where
  size : w.arena.size ≤ w'.arena.size
  within : ∀ d, w.within d ⊆ w'.within d
  shell : ∀ i : ExprId, i.index < w.arena.size →
    i ∈ w'.within 0 ∨ (w'.arena.get i).hollow = (w.arena.get i).hollow

instance : Preorder Stage where
  le := Before
  le_refl w := ⟨le_rfl, fun _ => subset_rfl, fun _ _ => .inr rfl⟩
  le_trans _ _ _ h h' := ⟨h.size.trans h'.size, fun d => (h.within d).trans (h'.within d),
    fun i hi => by
      rcases h'.shell i (hi.trans_le h.size) with hi' | hi'
      · exact .inl hi'
      · rcases h.shell i hi with hi | hi
        · exact .inl (h'.within 0 hi)
        · exact .inr (hi'.trans hi)⟩

variable {w w' : Stage} {a b : Arena} {d : ℕ} {s : Stmt} {e : Expr} {x y : ExprId}

/-- A statement within `d` lists of the end owns ids within `d`, and lists
of statements within one less. -/
theorem todo_iff : w.Todo k d s ↔ s.kind.Free (due k d) ∧
    (∀ x ∈ s.kind.roots, x ∈ w.within d) ∧ ∀ b ∈ s.kind.blocks, ∀ t ∈ b, w.Todo k (d - 1) t := by
  cases d with
  | succ d => rfl
  | zero =>
    constructor
    · rintro ⟨hfree, hids⟩
      refine ⟨hfree.1, fun x hx => hids x (StmtKind.mem_ids.2 (.inl hx)), fun b hb t ht =>
        ⟨Block.everywhere_iff.1 (hfree.2 b hb) t ht, fun x hx => hids x ?_⟩⟩
      exact StmtKind.mem_ids.2 (.inr ⟨b, hb, Block.mem_ids_iff.2 ⟨t, ht, hx⟩⟩)
    · rintro ⟨hfree, hroots, hblocks⟩
      refine ⟨⟨hfree, fun b hb => Block.everywhere_iff.2 fun t ht => (hblocks b hb t ht).1⟩,
        fun x hx => ?_⟩
      rcases StmtKind.mem_ids.1 hx with hx | ⟨b, hb, hx⟩
      · exact hroots x hx
      · obtain ⟨t, ht, hx⟩ := Block.mem_ids_iff.1 hx
        exact (hblocks b hb t ht).2 x hx

theorem Todo.mono_within (h : ∀ d, w.within d ⊆ w'.within d) :
    ∀ {d : ℕ} {s : Stmt}, w.Todo k d s → w'.Todo k d s
  | 0, _, hs => ⟨hs.1, fun x hx => h 0 (hs.2 x hx)⟩
  | d + 1, _, hs => ⟨hs.1, fun x hx => h (d + 1) (hs.2.1 x hx), fun b hb t ht =>
    (hs.2.2 b hb t ht).mono_within h⟩

theorem mem_mono (h : w ≤ w') (hx : x ∈ w.within d) : x ∈ w'.within d := h.within d hx

theorem Todo.mono (h : w ≤ w') (hs : w.Todo k d s) : w'.Todo k d s := hs.mono_within h.within

/-- What is finished may be visited to any depth. -/
theorem Todo.of_done (h : w.within 0 ⊆ w.within d) (hfin : ∀ n, w.within 0 ⊆ w.within n)
    (hs : w.Todo k 0 s) : w.Todo k d s := by
  induction d generalizing s with
  | zero => exact hs
  | succ d ih =>
    obtain ⟨hfree, hroots, hblocks⟩ := todo_iff.1 hs
    exact ⟨hfree.of_succ, fun x hx => h (hroots x hx), fun b hb t ht =>
      ih (hfin d) (hblocks b hb t ht)⟩

theorem Node.mono_within (h : ∀ d, w.within d ⊆ w'.within d) (he : w.Node k d e) :
    w'.Node k d e :=
  ⟨he.free, fun x hx => h d (he.children x hx), fun func hfunc s hs =>
    (he.body func hfunc s hs).mono_within h⟩

theorem Node.of_done (hfin : ∀ n, w.within 0 ⊆ w.within n) (he : w.Node k 0 e) :
    w.Node k d e := by
  refine ⟨?_, fun x hx => hfin d (he.children x hx), fun func hfunc s hs =>
    (he.body func hfunc s hs).of_done (hfin _) hfin⟩
  cases d with
  | zero => exact he.free
  | succ d => exact he.free.of_succ

/-- A plain node that is no literal. -/
theorem Node.plain (hk : k < 5) (he : e.isPlain) (hchildren : ∀ x ∈ e.children, x ∈ w.within d) :
    w.Node k d e := by
  have hlasts : e.lasts = 5 := by
    unfold Expr.lasts
    split <;> first | rfl | cases he
  refine ⟨?_, hchildren, ?_⟩
  · unfold Expr.Free
    cases d <;> simp only [due] <;> omega
  · rintro func rfl
    cases he

/-- A plain statement without lists. -/
theorem Todo.plain (hk : k < 5) (hlasts : s.kind.lasts = 5) (hblocks : s.kind.blocks = [])
    (hroots : ∀ x ∈ s.kind.roots, x ∈ w.within d) : w.Todo k d s := by
  refine todo_iff.2 ⟨?_, hroots, by simp [hblocks]⟩
  unfold StmtKind.Free
  cases d <;> simp only [due] <;> omega

namespace Good

/-- **One node** is new within `d` lists of the end, or an old one has come
to it. -/
theorem update (h : w.Good k a) (d : ℕ) (hsize : a.size ≤ b.size) (hx : x.index < b.size)
    (hother : ∀ j, j ≠ x → b.get j = a.get j) (hnode : w.Node k d (b.get x))
    (hnew : d = 0 ∨ a.size ≤ x.index) :
    ∃ w', w ≤ w' ∧ x ∈ w'.within d ∧ w'.Good k b := by
  obtain rfl := h.arena
  let w' : Stage := ⟨b, fun n => {y | y ∈ w.within n ∨ y = x ∧ (d = 0 ∨ n = d)}⟩
  have hwithin : ∀ n, w.within n ⊆ w'.within n := fun n y hy => .inl hy
  -- the new stage has `x` within every distance if it is finished, else within `d` alone
  refine ⟨w', ⟨hsize, hwithin, fun j hj => ?_⟩, .inr ⟨rfl, .inr rfl⟩, rfl, ?_, ?_, ?_⟩
  · by_cases hjx : j = x
    · subst hjx
      have hd : d = 0 := by omega
      exact .inl (.inr ⟨rfl, .inl hd⟩)
    · exact .inr (by rw [hother j hjx])
  · rintro n y (hy | ⟨rfl, -⟩)
    · exact (h.inside n y hy).trans_le hsize
    · exact hx
  · rintro n y (hy | ⟨rfl, hd⟩)
    · exact .inl (h.finished n hy)
    · exact .inr ⟨rfl, .inl (by omega)⟩
  · intro n y hy
    by_cases hyx : y = x
    · subst hyx
      rcases hy with hy | ⟨-, hd⟩
      · -- an old id is only ever finished
        have hd : d = 0 := by
          have := h.inside n y hy
          omega
        subst hd
        exact (hnode.of_done h.finished).mono_within hwithin
      · rcases hd with rfl | rfl
        · exact (hnode.of_done h.finished).mono_within hwithin
        · exact hnode.mono_within hwithin
    · rw [hother y hyx]
      exact (h.nodes n y (hy.resolve_right fun hy => hyx hy.1)).mono_within hwithin

/-- **A new node.** -/
theorem alloc (h : w.Good k a) (hnode : w.Node k d e) :
    Builds (Good k) (Build.alloc e) (fun w' i => i ∈ w'.within d) w a := by
  obtain ⟨w', hle, hmem, hgood⟩ := h.update (b := (a.alloc e).2) (x := ⟨a.size⟩) d
    (Arena.extends_alloc a e).size_le (by rw [Arena.size_alloc]; exact Nat.lt_succ_self _)
    (fun j hj => (Arena.get_alloc_cases a e j).resolve_right fun h => hj h.1)
    (by rwa [Arena.get_alloc_self]) (.inr le_rfl)
  exact ⟨w', hle, hgood, hmem⟩

/-- **An overwritten node** is finished. -/
theorem set (h : w.Good k a) (hx : x.index < a.size) (hnode : w.Node k 0 e) :
    ∃ w', w ≤ w' ∧ x ∈ w'.within 0 ∧ w'.Good k (a.set x e) :=
  h.update 0 (Arena.size_set a x e).ge (by rwa [Arena.size_set])
    (fun _ hj => Arena.get_set_of_ne e hj) (by rwa [Arena.get_set_self e hx]) (.inl rfl)

/-- A node that is finished as it is. -/
theorem mark (h : w.Good k a) (hx : x.index < a.size) (hnode : w.Node k 0 (a.get x)) :
    ∃ w', w ≤ w' ∧ x ∈ w'.within 0 ∧ w'.Good k a :=
  h.update 0 le_rfl hx (fun _ _ => rfl) hnode (.inl rfl)

/-- A literal with a finished body is finished. -/
theorem setBody (hk : k < 5) (h : w.Good k a) (hx : x.index < a.size) (body : Block)
    (hfunc : x ∈ w.within 0 ∨ a.body? x ≠ none) (hbody : ∀ s ∈ body, w.Todo k 0 s) :
    ∃ w', w ≤ w' ∧ x ∈ w'.within 0 ∧ w'.Good k (a.setBody x body) := by
  obtain ⟨hnone, hset⟩ | ⟨func, -, hset⟩ := a.setBody_cases x body <;> rw [hset]
  · exact ⟨w, le_rfl, hfunc.resolve_right (by simp [hnone]), h⟩
  · refine h.set hx ⟨?_, by simp [Expr.children], ?_⟩
    · show k + 1 ≤ 5
      omega
    · rintro _ ⟨⟩ s hs
      exact hbody s hs

/-! ## Building at a stage -/

theorem call (hk : k < 5) (h : w.Good k a) {args : List ExprId} (hx : x ∈ w.within d)
    (hargs : ∀ y ∈ args, y ∈ w.within d) :
    Builds (Good k) (Build.call x args) (fun w' i => i ∈ w'.within d) w a :=
  h.alloc (.plain hk rfl (by simpa [Expr.call, Expr.children, hx] using hargs))

theorem function (hk : k < 5) (h : w.Good k a) (func : FuncBody)
    (hbody : ∀ s ∈ func.body, w.Todo k (d - 1) s) :
    Builds (Good k) (Build.alloc (.atom (.func func))) (fun w' i => i ∈ w'.within d) w a := by
  refine h.alloc ⟨?_, by simp [Expr.children], ?_⟩
  · show due k d ≤ 5
    cases d <;> simp only [due] <;> omega
  · rintro _ ⟨⟩ s hs
    exact hbody s hs

end Good

/-- Plain nodes of finished ids are finished, and literals of plain
statements. -/
theorem makes (hk : k < 5) : MakesLiterals (Good k) (fun w i => i ∈ w.within 0) where
  mono h hx := h.within 0 hx
  node h he hchildren := h.alloc (.plain hk he hchildren)
  closure {w a s} params h hs hroots := by
    have hlasts : s.kind.lasts = 5 := by
      unfold StmtKind.lasts
      split <;> first | rfl | simp_all [StmtKind.isPlain]
    refine h.function hk (d := 0) _ fun t ht => ?_
    obtain rfl := List.mem_singleton.1 ht
    exact .plain hk hlasts (StmtKind.blocks_of_isPlain hs) hroots

end Stage

end LuaSugar
