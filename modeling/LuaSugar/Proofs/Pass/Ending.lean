import Mathlib
import LuaSugar.Proofs.Pass.Building
import LuaSugar.Proofs.Pass.Deeper
import LuaSugar.Proofs.Syntax.Growth
import LuaSugar.Proofs.Syntax.Load
/-!
# Walks that end

What a walk may still go down into is the lists nested in the list it is
in, and the bodies of the literals that it has not walked. The **room** of
an arena is how deep the latter go, all of them together. It falls by the
height of a body when that is entered, and where no callback adds to it a
walk needs no more depth than the height of its list and the room there is
(`Level.walkBlock`).

An assignment expression has room for the literal that it may be turned
into: so the room does not grow when that is done.

Two kinds of walk are level. One is any walk that has failed, since nothing
is called any more (`level_failed`); so a failed walk comes to an end. The
other are the walks of passes that put nothing ahead of their cursor and
make no literals beyond that (`level_ofExpression`, `level_ofStatement`).
-/

namespace LuaSugar

/-! ## How deep lists are nested -/

/-- Statement lists are nested in a list so deep at most, the list itself
counted unless it is empty. -/
def Block.NestsWithin : ℕ → Block → Prop
  | 0, block => block = []
  | n + 1, block => ∀ s ∈ block, ∀ b ∈ s.kind.blocks, Block.NestsWithin n b

namespace Block

/-- A list is nested no deeper than it has statements. -/
theorem nestsWithin_of_size_le : ∀ {n : ℕ} {block : Block}, Block.size block ≤ n →
    block.NestsWithin n
  | 0, [], _ => rfl
  | 0, s :: rest, h => by
    rw [Block.size] at h
    cases s
    rw [Stmt.size] at h
    omega
  | n + 1, block, h => by
    intro s hs b hb
    refine nestsWithin_of_size_le ?_
    have hle := StmtKind.size_le hb
    have hmem := Block.size_le_of_mem hs
    cases s
    rw [Stmt.size] at hmem
    dsimp only at hle
    omega

/-- How deep lists are nested in a list. -/
noncomputable def height (block : Block) : ℕ := sInf {n | block.NestsWithin n}

theorem nestsWithin_height (block : Block) : block.NestsWithin block.height :=
  Nat.sInf_mem (s := {n | block.NestsWithin n}) ⟨_, nestsWithin_of_size_le le_rfl⟩

theorem height_le {n : ℕ} {block : Block} (h : block.NestsWithin n) : block.height ≤ n :=
  Nat.sInf_le h

end Block

/-! ## Room -/

/-- How deep a walk may come to go by way of a node: into the body of a
literal, unless it has seen it, and into the one statement deep literal that
an assignment expression turns into. -/
noncomputable def Expr.room (seen : Prop) [Decidable seen] : Expr → ℕ
  | .atom (.func func) => if seen then 0 else Block.height func.body
  | .arith (.assign _ _ _) => 1
  | _ => 0

theorem Expr.room_le (seen : Prop) [Decidable seen] (e : Expr) : e.room seen ≤ e.bodySize + 1 := by
  unfold room
  split
  · rename_i func
    have hheight := Block.height_le (Block.nestsWithin_of_size_le (le_refl (Block.size func.body)))
    have hsize := func.size_eq
    split
    · exact Nat.zero_le _
    · simp only [bodySize]
      omega
  · exact Nat.le_add_left _ _
  · exact Nat.zero_le _

namespace Arena

variable {a a' : Arena} {seen : List ExprId} {x : ExprId}

/-- How deep a walk may come to go by way of nodes, all of them together. -/
noncomputable def room (a : Arena) (seen : List ExprId) : ℕ :=
  ∑ n ∈ Finset.range a.size, (a.get ⟨n⟩).room (⟨n⟩ ∈ seen)

theorem room_start_lt_depth (c : Chunk) : Block.size c.body + c.arena.room [] ≤ Pass.depth c := by
  have hroom : c.arena.room [] ≤
      ∑ n ∈ Finset.range c.arena.size, ((c.arena.get ⟨n⟩).bodySize + 1) :=
    Finset.sum_le_sum fun n _ => Expr.room_le _ _
  have hcount := c.statementCount_eq
  simp only [Finset.sum_add_distrib, Finset.sum_const, Finset.card_range, smul_eq_mul,
    mul_one] at hroom
  unfold Pass.depth
  omega

/-- **Another node in one place**, or a literal seen that was not: the room
changes by the room of that place. -/
theorem room_update (seen seen' : List ExprId) (hsize : a'.size = a.size) (hx : x.index < a.size)
    (hget : ∀ i, i ≠ x → a'.get i = a.get i) (hseen : ∀ i, i ≠ x → (i ∈ seen' ↔ i ∈ seen)) :
    a'.room seen' + (a.get x).room (x ∈ seen) = a.room seen + (a'.get x).room (x ∈ seen') := by
  have hmem : x.index ∈ Finset.range a.size := Finset.mem_range.2 hx
  have hrest : ∑ n ∈ (Finset.range a.size).erase x.index, (a'.get ⟨n⟩).room (⟨n⟩ ∈ seen') =
      ∑ n ∈ (Finset.range a.size).erase x.index, (a.get ⟨n⟩).room (⟨n⟩ ∈ seen) := by
    refine Finset.sum_congr rfl fun n hn => ?_
    have hne : (⟨n⟩ : ExprId) ≠ x := fun h => Finset.ne_of_mem_erase hn (congrArg ExprId.index h)
    simp only [hget _ hne, hseen _ hne]
  rw [room, room, hsize, ← Finset.add_sum_erase _ _ hmem,
    ← Finset.add_sum_erase _ (fun n => (a.get ⟨n⟩).room (⟨n⟩ ∈ seen)) hmem, hrest]
  show (a'.get x).room (x ∈ seen') + _ + _ = (a.get x).room (x ∈ seen) + _ + _
  omega

/-- **A literal is entered**: there is less room by the height of its
body. -/
theorem room_take {body : Block} (hbody : a.body? x = some body) (hx : x ∉ seen) :
    (a.setBody x []).room (x :: seen) + body.height = a.room seen := by
  obtain ⟨func, hfunc, rfl⟩ := body?_eq_some.1 hbody
  have hupdate := room_update seen (x :: seen) (size_setBody a x []) (inside_of_body? hbody)
    (fun i hi => get_setBody_of_ne [] hi) fun i hi => by simp [hi]
  rw [get_setBody_self hfunc, hfunc] at hupdate
  simpa [Expr.room, hx] using hupdate

/-- Its body is put back when it counts no more. -/
theorem room_put (hx : x ∈ seen) (body : Block) : (a.setBody x body).room seen = a.room seen := by
  rcases setBody_cases a x body with hsame | ⟨func, hfunc, hset⟩
  · rw [hsame.2]
  · have hinside : x.index < a.size := inside_of_get_ne x (by simp [hfunc])
    have hupdate := room_update seen seen (size_setBody a x body) hinside
      (fun i hi => get_setBody_of_ne body hi) fun _ _ => Iff.rfl
    rw [get_setBody_self hfunc, hfunc] at hupdate
    simpa [Expr.room, hx] using hupdate

/-- A new node adds its own room. -/
theorem room_alloc_le (a : Arena) (seen : List ExprId) (e : Expr) :
    (a.alloc e).2.room seen ≤ a.room seen + e.room False := by
  rw [room, size_alloc, Finset.sum_range_succ, get_alloc_self]
  refine Nat.add_le_add (Finset.sum_le_sum fun n hn => ?_) ?_
  · rw [get_alloc_of_lt e (Finset.mem_range.1 hn)]
  · unfold Expr.room
    split
    · split <;> simp
    · rfl
    · rfl

/-- In place of a node there is the room of another. -/
theorem room_set_add (hx : x.index < a.size) (e : Expr) (seen : List ExprId) :
    (a.set x e).room seen + (a.get x).room (x ∈ seen) = a.room seen + e.room (x ∈ seen) := by
  have hupdate := room_update seen seen (size_set a x e) hx (fun i hi => get_set_of_ne e hi)
    fun _ _ => Iff.rfl
  rwa [get_set_self e hx] at hupdate

end Arena

namespace Pass

variable {σ ε α : Type} {I : Walk σ ε → Prop}

/-- A walk that is not exhausted, and for which there is room for so much at
most. -/
structure Spare (I : Walk σ ε → Prop) (n : ℕ) (walk : Walk σ ε) : Prop where
  holds : I walk
  goesOn : walk.exhausted = false
  room : walk.space.arena.room walk.seen ≤ n

/-- The callbacks of a pass put nothing ahead of their cursor and add to the
room no more than they take from it, while `I` holds, and it goes on to
hold. -/
structure Level (r : Pass σ ε) (I : Walk σ ε → Prop) : Prop where
  lasts : Lasting r I
  after : ∀ c walk, I walk → (r.visit c walk).1.after = c.after
  statement : ∀ n c, Stays (Spare I n) (r.visit c)
  expression : ∀ n x owner, Stays (Spare I n) (attempt (r.expression x owner) ())

/-- **What has been seen stays seen.** -/
theorem lasting_seen (r : Pass σ ε) (x : ExprId) : Lasting r fun walk => x ∈ walk.seen :=
  ⟨fun _ _ h => List.mem_cons_of_mem _ h, fun _ _ _ h => h, fun _ h => h,
    fun c walk h => (call_seen _ c _ walk).symm ▸ h,
    fun _ _ walk h => (call_seen _ () _ walk).symm ▸ h⟩

namespace Level

variable {r : Pass σ ε} {enter : Block → StateM (Walk σ ε) Block} {d m n : ℕ}

/-- Lists of some height are walked within the depth that they and the room
ask for. -/
def Enters (I : Walk σ ε → Prop) (enter : Block → StateM (Walk σ ε) Block) (d : ℕ) : Prop :=
  ∀ {m n : ℕ} {block : Block}, block.NestsWithin m → m + n ≤ d → Stays (Spare I n) (enter block)

/-- **A literal** is entered with the less room. -/
theorem walkLiteral (h : Level r I) (he : Enters I enter d)
    (hseen : ∀ x block, Stays (fun walk => x ∈ walk.seen) (enter block)) (hn : n ≤ d) (x : ExprId) :
    Stays (Spare I n) (Pass.walkLiteral enter x) := by
  intro walk hwalk
  rw [Contract.walkLiteral_eq]
  cases hbody : walk.space.arena.body? x with
  | none => exact hwalk
  | some body =>
    by_cases hx : x ∈ walk.seen
    · simpa only [hx, if_true] using hwalk
    simp only [hx, if_false]
    have hroom := Arena.room_take hbody hx
    have hle := hwalk.room
    have htaken : Spare I (n - body.height) { walk with
        seen := x :: walk.seen
        space := { walk.space with arena := walk.space.arena.setBody x [] } } :=
      ⟨h.lasts.body _ x [] (h.lasts.seen walk x hwalk.holds), hwalk.goesOn, by
        show (walk.space.arena.setBody x []).room (x :: walk.seen) ≤ _
        omega⟩
    have hleft := he body.nestsWithin_height (by omega) _ htaken
    refine ⟨h.lasts.body _ x _ hleft.holds, hleft.goesOn, ?_⟩
    refine (Arena.room_put (hseen x body _ List.mem_cons_self) _).trans_le ?_
    exact hleft.room.trans (Nat.sub_le _ _)

theorem walkRoot (h : Level r I) (he : Enters I enter d)
    (hseen : ∀ x block, Stays (fun walk => x ∈ walk.seen) (enter block)) (hn : n ≤ d)
    (owner : Stmt) (root : ExprId) : Stays (Spare I n) (r.walkRoot enter owner root) := by
  intro walk hwalk
  have hbelow : Stays (Spare I n)
      ((walk.space.arena.descendants root).forM (Pass.walkLiteral enter)) :=
    .forM fun x _ => h.walkLiteral he hseen hn x
  exact hbelow.bind (fun _ => h.expression n root owner) walk hwalk

/-- **Before the callback** nested lists and literals are walked. -/
theorem inner (h : Level r I) (he : Enters I enter d)
    (hseen : ∀ x block, Stays (fun walk => x ∈ walk.seen) (enter block)) {s : Stmt}
    (hs : ∀ b ∈ s.kind.blocks, b.NestsWithin m) (hn : m + n ≤ d) :
    Stays (Spare I n) (r.inner enter s) := by
  have hlists : Stays (Spare I n) (s.kind.mapBlocksM enter) := by
    rw [StmtKind.mapBlocksM_eq, map_eq_pure_bind]
    exact (Stays.mapM fun b hb => he (hs b hb) hn).bind fun _ => .pure _
  refine hlists.bind fun kind => ?_
  exact (Stays.forM fun x _ => h.walkRoot he hseen (by omega) { s with kind } x).bind
    fun _ => .pure _

/-- A list by slots: what is ahead stays as it was. -/
theorem walkSlots (h : Level r I) (he : Enters I enter d)
    (hseen : ∀ x block, Stays (fun walk => x ∈ walk.seen) (enter block)) (hn : m + n ≤ d) :
    ∀ (visits : ℕ) (behind ahead : List Slot),
      (∀ slot ∈ ahead, ∀ b ∈ slot.stmt.kind.blocks, b.NestsWithin m) →
      Stays (Spare I n) (r.walkSlots enter visits behind ahead)
  | 0, _, _, _ => .pure _
  | visits + 1, behind, ahead, hahead => by
    rcases ahead_cases ahead with hfresh | ⟨skipped, s, after, rfl, hskipped⟩
    · rw [walkSlots_skip hfresh]
      exact .pure _
    rw [walkSlots_visit hskipped]
    refine (h.inner he hseen (hahead ⟨s, false⟩ (by simp)) hn).bind fun s' walk hwalk => ?_
    have hafter := h.after ⟨skipped.reverse ++ behind, ⟨s', false⟩, after⟩ walk hwalk.holds
    refine h.walkSlots he hseen hn visits _ _ ?_ _ (h.statement n _ walk hwalk)
    intro slot (hslot : slot ∈ (r.visit _ walk).1.after)
    rw [hafter] at hslot
    exact hahead slot (by simp [hslot])

/-- **A level walk** needs no more depth than the height of its list and the
room there is. -/
theorem walkBlock (h : Level r I) : ∀ d : ℕ, Enters I (r.walkBlock d) d
  | 0, m, n, block, hblock, hd => by
    obtain rfl : m = 0 := by omega
    obtain rfl : block = [] := hblock
    intro walk hwalk
    rwa [Pass.walkBlock, passOver_nil]
  | d + 1, m, n, block, hblock, hd => by
    rw [Pass.walkBlock]
    cases m with
    | zero =>
      obtain rfl : block = [] := hblock
      exact Stays.bind (.pure _) fun _ => .pure _
    | succ m =>
      refine Stays.bind (h.walkSlots (m := m) (h.walkBlock d)
        (fun x => (lasting_seen r x).walkBlock d) (by omega) _ _ _ fun slot hslot => ?_)
        fun _ => .pure _
      obtain ⟨s, hs, rfl⟩ := List.mem_map.1 hslot
      exact hblock s hs

/-- **A run of a level pass** is not exhausted. -/
theorem run (h : Level r fun _ => True) (state : σ) (c : Chunk) :
    (r.run state c).exhausted = false := by
  have hstart : Spare (fun _ => True) (c.arena.room []) (.start ⟨c.arena, state⟩ : Walk σ ε) :=
    ⟨trivial, rfl, le_rfl⟩
  exact (h.walkBlock (depth c) (Block.nestsWithin_of_size_le le_rfl)
    (Arena.room_start_lt_depth c) _ hstart).goesOn

end Level

/-! ## Failed walks -/

theorem call_failed {edit : Edit σ ε α} {default : α} {left : Workspace σ → α} {walk : Walk σ ε}
    (hf : walk.failure.isSome) : call edit default left walk = (default, walk) := by
  rw [call_eq, if_pos hf]

/-- **That a walk has failed** is not taken back. -/
theorem lasting_failed (r : Pass σ ε) : Lasting r fun walk => walk.failure.isSome := by
  have hstays {α : Type} (edit : Edit σ ε α) (default : α) (left : Workspace σ → α) :
      Stays (fun walk : Walk σ ε => walk.failure.isSome) (call edit default left) :=
    fun walk hf => by rwa [call_failed hf]
  exact ⟨fun _ _ h => h, fun _ _ _ h => h, fun _ h => h, fun c => hstays _ c _,
    fun _ _ => hstays _ () _⟩

/-- A failed walk is level, whatever the pass. -/
theorem level_failed (r : Pass σ ε) : Level r fun walk => walk.failure.isSome where
  lasts := lasting_failed r
  after c walk hf := by rw [visit, call_failed hf]
  statement n c walk hwalk := by rwa [visit, call_failed hwalk.holds]
  expression n x owner walk hwalk := by rwa [attempt, call_failed hwalk.holds]

/-- **A failed walk ends**: before the callback on a statement as well. -/
theorem inner_failed (r : Pass σ ε) (s : Stmt) {walk : Walk σ ε} (hf : walk.failure.isSome)
    (hleft : walk.exhausted = false) :
    ∃ depth, (r.inner (r.walkBlock depth) s walk).2.exhausted = false := by
  have hs : ∀ b ∈ s.kind.blocks, b.NestsWithin s.kind.size := fun b hb =>
    Block.nestsWithin_of_size_le (StmtKind.size_le hb)
  let n := walk.space.arena.room walk.seen
  have hspare : Spare (fun walk => walk.failure.isSome) n walk := ⟨hf, hleft, le_rfl⟩
  exact ⟨s.kind.size + n, ((level_failed r).inner ((level_failed r).walkBlock _)
    (fun x => (lasting_seen r x).walkBlock _) hs le_rfl walk hspare).goesOn⟩

/-! ## Passes that keep the room -/

/-- A callback is level with an edit that keeps the room. -/
theorem Spare.call {n : ℕ} {edit : Edit σ ε α} {default : α} {left : Workspace σ → α}
    (hedit : ∀ {seen : List ExprId} {space : Workspace σ}, space.arena.room seen ≤ n →
      Edits (fun (_ : Unit) a => a.room seen ≤ n) edit (fun _ _ => True) () space) :
    Stays (Spare (fun _ => True) n) (Pass.call edit default left) := by
  intro walk hwalk
  rw [call_eq]
  by_cases hf : walk.failure.isSome
  · rwa [if_pos hf]
  rw [if_neg hf]
  obtain ⟨-, -, hroom, -⟩ := hedit hwalk.room
  rcases hrun : edit.run walk.space with ⟨v | e, space⟩ <;> rw [hrun] at hroom <;>
    exact ⟨trivial, hwalk.goesOn, hroom⟩

theorem lasting_true (r : Pass σ ε) : Lasting r fun _ => True :=
  ⟨fun _ _ h => h, fun _ _ _ h => h, fun _ h => h, fun _ _ h => h, fun _ _ _ h => h⟩

/-- A pass over expressions is level if its callback keeps the room. -/
theorem level_ofExpression {f : ExprId → Stmt → Edit σ ε Unit}
    (hf : ∀ {n : ℕ} {seen : List ExprId} (x owner) {space : Workspace σ},
      space.arena.room seen ≤ n →
      Edits (fun (_ : Unit) a => a.room seen ≤ n) (f x owner) (fun _ _ => True) () space) :
    Level (ofExpression f) fun _ => True where
  lasts := lasting_true _
  after c walk _ := by
    rw [visit, call_eq]
    split <;> rfl
  statement n c := Spare.call fun hroom => .pure hroom trivial
  expression n x owner := Spare.call fun hroom => hf x owner hroom

/-- A pass over statements is level if its callback keeps the room and what
is ahead of the cursor. -/
theorem level_ofStatement {f : Cursor → Edit σ ε Cursor}
    (hf : ∀ {n : ℕ} {seen : List ExprId} (c) {space : Workspace σ}, space.arena.room seen ≤ n →
      Edits (fun (_ : Unit) a => a.room seen ≤ n) (f c) (fun _ c' => c'.after = c.after) () space) :
    Level (ofStatement f) fun _ => True where
  lasts := lasting_true _
  after c walk _ := by
    have hvisit : (ofStatement f).visit c = attempt (f c) c := FailsFirst.visit (fun _ _ => rfl) c
    rw [hvisit, attempt_eq]
    by_cases hfailed : walk.failure.isSome
    · rw [if_pos hfailed]
    rw [if_neg hfailed]
    rcases hrun : (f c).run walk.space with ⟨e | c', space⟩
    · rfl
    · have hroom : walk.space.arena.room walk.seen ≤ _ := le_rfl
      obtain ⟨_, -, -, hafter⟩ := hf c hroom
      rw [hrun] at hafter
      exact hafter c' rfl
  statement n c := Spare.call fun hroom => (hf c hroom).mono fun _ _ _ _ => trivial
  expression n x owner := Spare.call fun hroom => .pure hroom trivial

end Pass

end LuaSugar
