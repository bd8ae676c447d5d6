import Mathlib
import LuaSugar.Proofs.Syntax.WellFormed
/-!
# Sameness is an equivalence

Syntax that is the same as a third is the same as each other: if ids that
compare as equal to one id compare as equal, so do the statements and
nodes that hold them (`stmtKind_join`, `expr_join`). One recursion over
statements does for symmetry and transitivity both, since what is
well-formed is the same as itself.

Each comparison of chunks follows ids as deep as the first arena is large.
For chunks that are well-formed it makes no difference how deep, so three
chunks are compared at one depth that is enough for all of them.
-/

namespace LuaSugar

/-- Numbers that are the same as a third are the same: two that are no
numbers, or two of one value. -/
theorem Double.same_join {x y z : Double} (hxy : x.same y) (hzy : z.same y) : x.same z := by
  unfold Double.same at *
  simp only [Bool.or_eq_true, Bool.and_eq_true, Bool.not_eq_true', beq_iff_eq] at *
  rcases hxy with ⟨hx, hy⟩ | ⟨⟨hx, hy⟩, hxy⟩ <;> rcases hzy with ⟨hz, hy'⟩ | ⟨⟨hz, hy'⟩, hzy⟩
  · exact .inl ⟨hx, hz⟩
  · rw [hy] at hy'
    cases hy'
  · rw [hy] at hy'
    cases hy'
  · refine .inr ⟨⟨hx, hz⟩, ?_⟩
    rcases hxy with rfl | ⟨hx, hy⟩ <;> rcases hzy with rfl | ⟨hz, hy'⟩
    · exact .inl rfl
    · exact .inr ⟨hy', hz⟩
    · exact .inr ⟨hx, hy⟩
    · exact .inr ⟨hx, hz⟩

/-! ## Comparing two with a third -/

namespace Comparison

/-- Lists that compare with a third, item by item. -/
theorem isEqv_join {α : Type} {r r' r'' : α → α → Bool}
    (h : ∀ x y z, r x y → r' z y → r'' x z) : ∀ {xs ys zs : List α},
    xs.isEqv ys r → zs.isEqv ys r' → xs.isEqv zs r''
  | [], [], [], _, _ => rfl
  | x :: xs, y :: ys, z :: zs, hxy, hzy => by
    rw [List.isEqv, Bool.and_eq_true] at *
    exact ⟨h x y z hxy.1 hzy.1, isEqv_join h hxy.2 hzy.2⟩

variable {e e' e'' : Comparison}

/-- Ids that compare as equal to one id compare as equal. -/
def Joins (e e' e'' : Comparison) : Prop := ∀ i j k, e i j → e' k j → e'' i k

theorem Joins.exprs (h : Joins e e' e'') {xs ys zs : List ExprId} (hxy : e.exprs xs ys)
    (hzy : e'.exprs zs ys) : e''.exprs xs zs := isEqv_join h hxy hzy

/-- What is the same as ignored statements is ignored. -/
theorem all_isIgnored_of_block : ∀ {body other : List Stmt}, e.block body other →
    other.all Stmt.isIgnored → body.all Stmt.isIgnored
  | [], _, _, _ => rfl
  | ⟨kind, line⟩ :: rest, other, h, hall => by
    rw [block] at h
    split at h
    · rename_i hs
      rw [List.all_cons, hs, Bool.true_and]
      exact all_isIgnored_of_block h hall
    · rw [List.dropWhile_eq_nil_iff.2 (List.all_eq_true.1 hall)] at h
      cases h

/-- Ignored statements in front are not compared. -/
theorem block_dropWhile (body other : List Stmt) :
    e.block body (other.dropWhile Stmt.isIgnored) = e.block body other := by
  induction other with
  | nil => rfl
  | cons s other ih =>
    cases hs : s.isIgnored with
    | false => rw [List.dropWhile_cons_of_neg (by simp [hs])]
    | true => rw [List.dropWhile_cons_of_pos hs, block_cons_of_isIgnored hs, ih]

/-- Beside a statement that is not ignored stands one of its own. -/
theorem exists_of_block_cons {s : Stmt} (hs : s.isIgnored = false) {other : List Stmt} :
    ∀ {body : List Stmt}, e.block body (s :: other) → ∃ t rest,
      body.dropWhile Stmt.isIgnored = t :: rest ∧ e.stmtKind t.kind s.kind ∧ e.block rest other
  | [], h => by
    rw [block, List.all_cons, hs] at h
    cases h
  | ⟨kind, line⟩ :: rest, h => by
    rw [block] at h
    split at h
    · rename_i ht
      rw [List.dropWhile_cons_of_pos ht]
      exact exists_of_block_cons hs h
    · rename_i ht
      rw [List.dropWhile_cons_of_neg (by simp [hs]), Bool.and_eq_true] at h
      exact ⟨⟨kind, line⟩, rest, List.dropWhile_cons_of_neg ht, h.1, h.2⟩

mutual

/-- **Statements that are the same as a third** are the same. -/
theorem stmtKind_join (h : Joins e e' e'') {a b c : StmtKind} (hab : e.stmtKind a b)
    (hcb : e'.stmtKind c b) : e''.stmtKind a c := by
  cases a <;> cases b <;> simp only [stmtKind, Bool.and_eq_true, beq_iff_eq, Bool.false_eq_true] at hab <;>
    cases c <;> simp only [stmtKind, Bool.and_eq_true, beq_iff_eq, Bool.false_eq_true] at hcb ⊢
  case ret.ret.ret => exact h.exprs hab hcb
  case localFunction.localFunction.localFunction | function.function.function =>
    exact ⟨hab.1.trans hcb.1.symm, funcBody_join h hab.2 hcb.2⟩
  case localDecl.localDecl.localDecl => exact ⟨hab.1.trans hcb.1.symm, h.exprs hab.2 hcb.2⟩
  case compoundAssign.compoundAssign.compoundAssign =>
    exact ⟨⟨hab.1.1.trans hcb.1.1.symm, h _ _ _ hab.1.2 hcb.1.2⟩, h _ _ _ hab.2 hcb.2⟩
  case assign.assign.assign => exact ⟨h.exprs hab.1 hcb.1, h.exprs hab.2 hcb.2⟩
  case call.call.call => exact h _ _ _ hab hcb
  case doBlock.doBlock.doBlock => exact block_join h hab hcb
  case whileLoop.whileLoop.whileLoop | repeatLoop.repeatLoop.repeatLoop =>
    exact ⟨h _ _ _ hab.1 hcb.1, block_join h hab.2 hcb.2⟩
  case ifChain.ifChain.ifChain => exact ifArm_join h hab hcb
  case forNumeric.forNumeric.forNumeric =>
    obtain ⟨⟨⟨⟨hvar, hstart⟩, hlimit⟩, hstep⟩, hbody⟩ := hab
    obtain ⟨⟨⟨⟨hvar', hstart'⟩, hlimit'⟩, hstep'⟩, hbody'⟩ := hcb
    exact ⟨⟨⟨⟨hvar.trans hvar'.symm, h _ _ _ hstart hstart'⟩, h _ _ _ hlimit hlimit'⟩,
      h.exprs hstep hstep'⟩, block_join h hbody hbody'⟩
  case forGeneric.forGeneric.forGeneric =>
    exact ⟨⟨hab.1.1.trans hcb.1.1.symm, h.exprs hab.1.2 hcb.1.2⟩, block_join h hab.2 hcb.2⟩
  case importFrom.importFrom.importFrom => exact ⟨hab.1.trans hcb.1.symm, h _ _ _ hab.2 hcb.2⟩
  case intrinsic.intrinsic.intrinsic => exact ⟨h _ _ _ hab.1 hcb.1, h.exprs hab.2 hcb.2⟩
termination_by structural a

/-- Functions that compare with a third. -/
theorem funcBody_join (h : Joins e e' e'') : ∀ {f g k : FuncBody}, e.funcBody f g →
    e'.funcBody k g → e''.funcBody f k
  | ⟨_, _, _⟩, ⟨_, _, _⟩, ⟨_, _, _⟩, hfg, hkg => by
    simp only [funcBody, Bool.and_eq_true, beq_iff_eq] at hfg hkg ⊢
    exact ⟨⟨hfg.1.1.trans hkg.1.1.symm, hfg.1.2.trans hkg.1.2.symm⟩, block_join h hfg.2 hkg.2⟩
termination_by structural f => f

/-- Arms that compare with a third. -/
theorem ifArm_join (h : Joins e e' e'') : ∀ {a b c : IfArm}, e.ifArm a b → e'.ifArm c b →
    e''.ifArm a c
  | ⟨_, _, _, _⟩, ⟨_, _, _, _⟩, ⟨_, _, _, _⟩, hab, hcb => by
    simp only [ifArm, Bool.and_eq_true] at hab hcb ⊢
    exact ⟨⟨h _ _ _ hab.1.1 hcb.1.1, block_join h hab.1.2 hcb.1.2⟩, elseArm_join h hab.2 hcb.2⟩
termination_by structural a => a

theorem elseArm_join (h : Joins e e' e'') {a b c : ElseArm} (hab : e.elseArm a b)
    (hcb : e'.elseArm c b) : e''.elseArm a c := by
  cases a <;> cases b <;> simp only [elseArm, Bool.false_eq_true] at hab <;>
    cases c <;> simp only [elseArm, Bool.false_eq_true] at hcb ⊢
  case elseIf.elseIf.elseIf => exact ifArm_join h hab hcb
  case elseBlock.elseBlock.elseBlock => exact block_join h hab hcb
termination_by structural a

/-- **Lists** that compare with a third. By the recursion of the comparison,
which leaves out ignored statements as it comes to them. -/
theorem block_join (h : Joins e e' e'') : ∀ {a b c : List Stmt}, e.block a b → e'.block c b →
    e''.block a c
  | [], b, c, hab, hcb => by
    rw [block] at hab ⊢
    exact all_isIgnored_of_block hcb hab
  | ⟨kind, line⟩ :: rest, b, c, hab, hcb => by
    rw [block] at hab ⊢
    split at hab
    · rename_i hs
      rw [if_pos hs]
      exact block_join h hab hcb
    · rename_i hs
      rw [if_neg hs]
      split at hab
      · cases hab
      · -- the next statement of `b` that is not ignored stands beside one of `c`
        rename_i s' b' hdrop
        have hs' : s'.isIgnored = false := by
          have hnot := List.head?_dropWhile_not Stmt.isIgnored b
          rw [hdrop] at hnot
          simpa using hnot
        rw [← block_dropWhile, hdrop] at hcb
        obtain ⟨t, c', hc, hkind, hrest⟩ := exists_of_block_cons hs' hcb
        rw [Bool.and_eq_true] at hab
        rw [hc, Bool.and_eq_true]
        exact ⟨stmtKind_join h hab.1 hkind, block_join h hab.2 hrest⟩
termination_by structural a => a

end

/-- Tables that compare with a third, by keyed entries and by positional ones. -/
theorem table_join (h : Joins e e' e'') {a b c : Table} (hab : e.table a b) (hcb : e'.table c b) :
    e''.table a c := by
  rw [table, Bool.and_eq_true] at *
  refine ⟨h.exprs hab.1 hcb.1, isEqv_join (fun x y z hxy hzy => ?_) hab.2 hcb.2⟩
  obtain ⟨hkey, hvalue⟩ := Bool.and_eq_true_iff.1 hxy
  obtain ⟨hkey', hvalue'⟩ := Bool.and_eq_true_iff.1 hzy
  exact Bool.and_eq_true_iff.2 ⟨h _ _ _ hkey hkey', h _ _ _ hvalue hvalue'⟩

theorem element_join (h : Joins e e' e'') {a b c : Element} (hab : e.element a b)
    (hcb : e'.element c b) : e''.element a c := by
  simp only [element, Bool.and_eq_true, beq_iff_eq] at *
  obtain ⟨⟨hname, hproperties⟩, hchildren⟩ := hab
  obtain ⟨⟨hname', hproperties'⟩, hchildren'⟩ := hcb
  refine ⟨⟨hname.trans hname'.symm, isEqv_join (fun x y z hxy hzy => ?_) hproperties hproperties'⟩, ?_⟩
  · simp only [Bool.and_eq_true, beq_iff_eq] at hxy hzy ⊢
    exact ⟨hxy.1.trans hzy.1.symm, h _ _ _ hxy.2 hzy.2⟩
  · cases ha : a.children <;> cases hb : b.children <;> cases hc : c.children <;>
      simp only [ha, hb, hc, Bool.false_eq_true] at hchildren hchildren' ⊢
    exact h.exprs hchildren hchildren'

/-- **Nodes that are the same as a third** are the same. -/
theorem expr_join (h : Joins e e' e'') {x y z : Expr} (hxy : e.expr x y) (hzy : e'.expr z y) :
    e''.expr x z := by
  rcases x with x | x <;> rcases y with y | y <;> cases x <;> cases y <;>
    simp only [expr, Bool.and_eq_true, beq_iff_eq, Bool.false_eq_true] at hxy <;>
    rcases z with z | z <;> cases z <;>
    simp only [expr, Bool.and_eq_true, beq_iff_eq, Bool.false_eq_true] at hzy ⊢
  case atom.atom.number.number.atom.number => exact Double.same_join hxy hzy
  case atom.atom.table.table.atom.table => exact table_join h hxy hzy
  case atom.atom.element.element.atom.element => exact element_join h hxy hzy
  case atom.atom.func.func.atom.func => exact funcBody_join h hxy hzy
  case arith.arith.binary.binary.arith.binary | arith.arith.assign.assign.arith.assign =>
    exact ⟨⟨hxy.1.1.trans hzy.1.1.symm, h _ _ _ hxy.1.2 hzy.1.2⟩, h _ _ _ hxy.2 hzy.2⟩
  case arith.arith.unary.unary.arith.unary | arith.arith.member.member.arith.member =>
    exact ⟨hxy.1.trans hzy.1.symm, h _ _ _ hxy.2 hzy.2⟩
  case arith.arith.subscript.subscript.arith.subscript =>
    exact ⟨h _ _ _ hxy.1 hzy.1, h _ _ _ hxy.2 hzy.2⟩
  case arith.arith.call.call.arith.call =>
    exact ⟨⟨hxy.1.1.trans hzy.1.1.symm, h _ _ _ hxy.1.2 hzy.1.2⟩, h.exprs hxy.2 hzy.2⟩
  all_goals exact hxy.trans hzy.symm

end Comparison

/-! ## Comparing arenas -/

/-- At one depth, what is the same as a third is the same. -/
theorem Arena.sameWithin_join {a b c : Arena} : ∀ n : ℕ,
    Comparison.Joins (a.sameWithin b n) (c.sameWithin b n) (a.sameWithin c n)
  | 0, _, _, _, h, _ => by cases h
  | n + 1, _, _, _, hij, hkj => Comparison.expr_join (sameWithin_join n) hij hkj

namespace Chunk

variable {c d k : Chunk}

namespace WellFormed

/-- **How deep ids are followed** makes no difference beyond the arena's
size. -/
theorem same_iff (h : c.WellFormed) (d : Chunk) {n : ℕ} (hn : c.arena.size < n) :
    c.same d ↔ (c.arena.sameWithin d.arena n).block c.body d.body := by
  have hdepth {i : ExprId} (hi : c.Reaches i) :
      c.arena.sameWithin d.arena n i = c.arena.sameWithin d.arena (c.arena.size + 1) i := by
    refine h.depth_eq (F := c.arena.sameWithin d.arena) (fun n m i ih => ?_) hn
      (Nat.lt_succ_self _) hi
    funext j
    exact Comparison.expr_congr (c.arena.get i) (d.arena.get j) ih
  have hblock := Comparison.block_mapIds (f := id) c.body
    (fun x hx => hdepth (reaches_of_mem_body hx)) d.body
  rw [Block.mapIds_id] at hblock
  rw [same, hblock]
  exact Iff.rfl

/-- **A well-formed chunk is the same as itself.** -/
theorem same_self (h : c.WellFormed) : c.same c := by
  refine Comparison.block_self c.body fun x hx => ?_
  exact h.induction_depth (P := fun n i => c.arena.sameWithin c.arena n i i)
    (fun n i _ ih => Comparison.expr_self (c.arena.get i) ih) (Nat.lt_succ_self _)
    (reaches_of_mem_body hx)

/-- **What is the same as a third is the same**, in whatever arenas. -/
theorem same_join (hc : c.WellFormed) (hk : k.WellFormed) (hcd : c.same d) (hkd : k.same d) :
    c.same k := by
  -- a depth that is enough for both
  have hleft : c.arena.size < c.arena.size + k.arena.size + 1 := by omega
  have hright : k.arena.size < c.arena.size + k.arena.size + 1 := by omega
  rw [hc.same_iff _ hleft] at hcd ⊢
  rw [hk.same_iff _ hright] at hkd
  exact Comparison.block_join (Arena.sameWithin_join _) hcd hkd

/-- It goes either way: both compare with the second chunk. -/
theorem same_symm (hc : c.WellFormed) (hd : d.WellFormed) (hcd : c.same d) : d.same c :=
  hd.same_join hc hd.same_self hcd

/-- And it goes on to a third chunk. -/
theorem same_trans (hc : c.WellFormed) (hd : d.WellFormed) (hk : k.WellFormed) (hcd : c.same d)
    (hdk : d.same k) : c.same k :=
  hc.same_join hk hcd (hd.same_symm hk hdk)

end WellFormed

end Chunk

end LuaSugar
