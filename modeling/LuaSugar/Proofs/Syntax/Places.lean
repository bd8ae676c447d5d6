import Mathlib
import LuaSugar.Syntax.Same
import LuaSugar.Proofs.Syntax.Growth
import LuaSugar.Proofs.Syntax.Renamed
import LuaSugar.Proofs.Pass.Sound
/-!
# Places of expressions

A call or `...` gives all its values where it stands last in a list, and
one value everywhere else. An **occurrence** is an id in its place. Two
chunks that are the same have the same occurrences, one beside the other,
along every path from the body. Their places are the same as well, but for
tables: sameness does not tell how keyed and positional entries interleave.
-/

namespace LuaSugar

/-- A call or `...`, which gives as many values as there are where it may. -/
def Expr.spreads : Expr → Bool
  | .arith (.call _ _ _) | .atom .vararg => true
  | _ => false

/-- Where an expression stands. -/
inductive Place where
  /-- Where one value is wanted. -/
  | single
  /-- The last of a list of values, or the last entry of a table. -/
  | last
  /-- The last positional entry of a table, with a keyed one behind it. -/
  | overtaken
deriving DecidableEq

/-- The place where keyed entries stand first. -/
def Place.settled : Place → Place
  | overtaken => last
  | place => place

/-- An id in its place. -/
structure Occurrence where
  place : Place
  id : ExprId
deriving DecidableEq

namespace Occurrence

def singles (ids : List ExprId) : List Occurrence := ids.map fun i => ⟨.single, i⟩

/-- A list of values, with the place of the last. -/
def list (place : Place) : List ExprId → List Occurrence
  | [] => []
  | [i] => [⟨place, i⟩]
  | i :: j :: rest => ⟨.single, i⟩ :: list place (j :: rest)

theorem map_singles (ids : List ExprId) : (singles ids).map id = ids := by
  simp [singles, Function.comp_def]

/-- The places of a list stand for its ids, in order. -/
theorem map_list (place : Place) : ∀ ids : List ExprId, (list place ids).map id = ids
  | [] => rfl
  | [_] => rfl
  | i :: j :: rest => congrArg (i :: ·) (map_list place (j :: rest))

end Occurrence

/-! ## Occurrences in statements and nodes -/

open Occurrence (singles list)

/-- The place of the last positional entry. -/
def Table.lastPlace (t : Table) : Place :=
  match t.entries.getLast? with
  | some (.positional _, _) => .last
  | _ => .overtaken

/-- A positional entry that is added last has the last place. -/
theorem Table.lastPlace_pushPositional (t : Table) (value : ExprId) :
    (t.pushPositional value).lastPlace = .last := by
  simp [lastPlace, pushPositional]

/-- In a settled table no keyed entry stands behind the last positional
one. -/
def Table.Settled (t : Table) : Prop := t.positional ≠ [] → t.lastPlace = .last

def Expr.Settled : Expr → Prop
  | .atom (.table t) => t.Settled
  | _ => True

/-- Every table of an arena is settled. -/
def Arena.Settled (a : Arena) : Prop := ∀ i, (a.get i).Settled

theorem Arena.settled_empty : Arena.empty.Settled := fun _ => trivial

/-- A settled node leaves the arena settled. -/
theorem Arena.Settled.alloc {a : Arena} (h : a.Settled) {e : Expr} (he : e.Settled) :
    (a.alloc e).2.Settled := by
  intro i
  rcases a.get_alloc_cases e i with hget | ⟨-, hget⟩ <;> rw [hget]
  · exact h i
  · exact he

/-- The occurrences in a table constructor, those in keyed entries first. -/
def Table.occurrences (t : Table) : List Occurrence :=
  t.keyed.flatMap (fun (key, value) => singles [key, value]) ++ list t.lastPlace t.positional

/-- The occurrences in a statement, without its lists. -/
def StmtKind.occurrences : StmtKind → List Occurrence
  | .ret values | .localDecl _ values => list .last values
  | .assign targets values => singles targets ++ list .last values
  | .forGeneric _ iterators _ => list .last iterators
  | .intrinsic x args => singles [x] ++ list .last args
  | kind => singles kind.roots

/-- The occurrences in a list of statements at every depth. -/
def Block.occurrences (body : Block) : List Occurrence :=
  (Block.deep body).flatMap fun s => s.kind.occurrences

/-- The occurrences in a node, those in the body of a function literal
included. -/
def Expr.occurrences : Expr → List Occurrence
  | .atom (.table t) => t.occurrences
  | .atom (.func func) => Block.occurrences func.body
  | .arith (.call target _ args) => singles [target] ++ list .last args
  | e => singles e.children

/-- The occurrences in a statement are its roots. -/
theorem StmtKind.map_occurrences (kind : StmtKind) : kind.occurrences.map Occurrence.id = kind.roots := by
  cases kind <;> simp [occurrences, roots, Occurrence.map_singles, Occurrence.map_list]

/-- The occurrences in a list are its ids, at every depth. -/
theorem Block.map_occurrences (body : Block) :
    (Block.occurrences body).map Occurrence.id = Block.ids body := by
  simp [Block.occurrences, Block.ids, List.map_flatMap, StmtKind.map_occurrences]

theorem Block.occurrences_cons (s : Stmt) (rest : Block) : Block.occurrences (s :: rest) =
    s.kind.occurrences ++
      (s.kind.nested.flatMap (fun t => t.kind.occurrences) ++ Block.occurrences rest) := by
  simp [Block.occurrences]

theorem Table.mem_occurrences {t : Table} {x : ExprId} (h : x ∈ (Expr.atom (.table t)).children) :
    x ∈ t.occurrences.map Occurrence.id := by
  simp only [Expr.children, List.mem_flatMap] at h
  obtain ⟨⟨key, value⟩, hentry, hx⟩ := h
  rw [occurrences, List.map_append, List.mem_append, Occurrence.map_list]
  cases key with
  | positional n =>
    refine .inr (List.mem_filterMap.2 ⟨_, hentry, ?_⟩)
    rw [List.mem_singleton.1 hx]
  | expr key =>
    have hkeyed : (key, value) ∈ t.keyed := List.mem_filterMap.2 ⟨_, hentry, rfl⟩
    rw [List.map_flatMap]
    exact .inl (List.mem_flatMap.2 ⟨_, hkeyed, (Occurrence.map_singles [key, value]).symm ▸ hx⟩)

/-- **Whatever a node refers to** occurs in it. -/
theorem Expr.mem_occurrences {e : Expr} {x : ExprId} (h : x ∈ e.refs) :
    x ∈ e.occurrences.map Occurrence.id := by
  rcases e with e | e
  · cases e with
    | table t => exact Table.mem_occurrences (by simpa [Expr.refs] using h)
    | func func => simpa [Expr.occurrences, Block.map_occurrences, Expr.refs, Expr.children] using h
    | _ => simpa [Expr.occurrences, Occurrence.map_singles, Expr.refs] using h
  · cases e <;>
      simpa [Expr.occurrences, Occurrence.map_singles, Occurrence.map_list, Expr.refs,
        Expr.children] using h

/-! ## Occurrences of what is the same -/

namespace Comparison

variable {e : Comparison}

/-- Occurrences of ids that are the same, where keyed entries stand first in
the second chunk. -/
def Matches (e : Comparison) (o p : Occurrence) : Prop := e o.id p.id ∧ p.place = o.place.settled

/-- Ids that match one by one match as single values. -/
theorem matches_singles {is js : List ExprId} (h : List.Forall₂ (fun i j => e i j) is js) :
    List.Forall₂ e.Matches (singles is) (singles js) := by
  induction h with
  | nil => exact .nil
  | cons hij _ ih => exact .cons ⟨hij, rfl⟩ ih

/-- **Lists** match with their last ids in the last place. -/
theorem matches_list {place : Place} {is js : List ExprId} (h : List.Forall₂ (fun i j => e i j) is js) :
    List.Forall₂ e.Matches (list place is) (list place.settled js) := by
  induction h with
  | nil => exact .nil
  | cons hij h ih =>
    cases h with
    | nil => exact .cons ⟨hij, rfl⟩ .nil
    | cons _ _ => exact .cons ⟨hij, rfl⟩ ih

theorem matches_exprs {is js : List ExprId} (h : e.exprs is js) :
    List.Forall₂ e.Matches (singles is) (singles js) :=
  matches_singles (isEqv_iff_forall₂.1 h)

/-- A list of values, of which the last may spread. -/
theorem matches_values {is js : List ExprId} (h : e.exprs is js) :
    List.Forall₂ e.Matches (list .last is) (list .last js) :=
  matches_list (isEqv_iff_forall₂.1 h)

/-- Ignored statements hold nothing. -/
theorem occurrences_cons_of_isIgnored {s : Stmt} (h : s.isIgnored) (rest : Block) :
    Block.occurrences (s :: rest) = Block.occurrences rest := by
  obtain ⟨kind, line⟩ := s
  cases kind <;> first | rfl | cases h

/-- Ignored statements have no occurrences. -/
theorem occurrences_dropWhile (body : Block) :
    Block.occurrences (body.dropWhile Stmt.isIgnored) = Block.occurrences body := by
  induction body with
  | nil => rfl
  | cons s rest ih =>
    rw [List.dropWhile_cons]
    split
    · rw [ih, occurrences_cons_of_isIgnored ‹_›]
    · rfl

theorem occurrences_of_isIgnored {body : Block} (h : body.all Stmt.isIgnored) :
    Block.occurrences body = [] := by
  rw [← occurrences_dropWhile, List.dropWhile_eq_nil_iff.2 (List.all_eq_true.1 h)]
  rfl

mutual

/-- **Statements** that are alike have matching occurrences, their own and
those of their nested lists. By the recursion of the comparison. -/
theorem stmtKind_matches {kind kind' : StmtKind} (h : e.stmtKind kind kind') :
    List.Forall₂ e.Matches kind.occurrences kind'.occurrences ∧
      List.Forall₂ e.Matches (kind.nested.flatMap fun s => s.kind.occurrences)
        (kind'.nested.flatMap fun s => s.kind.occurrences) := by
  cases kind <;> cases kind' <;> simp only [stmtKind, Bool.and_eq_true, Bool.false_eq_true] at h
  case ret.ret => exact ⟨matches_values h, .nil⟩
  case localFunction.localFunction | function.function => exact ⟨.nil, funcBody_matches h.2⟩
  case localDecl.localDecl => exact ⟨matches_values h.2, .nil⟩
  case compoundAssign.compoundAssign =>
    exact ⟨matches_singles (.cons h.1.2 (.cons h.2 .nil)), .nil⟩
  case assign.assign => exact ⟨List.rel_append (matches_exprs h.1) (matches_values h.2), .nil⟩
  case call.call => exact ⟨matches_singles (.cons h .nil), .nil⟩
  case break_.break_ => exact ⟨.nil, .nil⟩
  case doBlock.doBlock => exact ⟨.nil, block_matches h⟩
  case whileLoop.whileLoop | repeatLoop.repeatLoop =>
    exact ⟨matches_singles (.cons h.1 .nil), block_matches h.2⟩
  case ifChain.ifChain => exact ifArm_matches h
  case forNumeric.forNumeric =>
    obtain ⟨⟨⟨⟨-, hstart⟩, hlimit⟩, hstep⟩, hbody⟩ := h
    exact ⟨matches_singles (.cons hstart (.cons hlimit (isEqv_iff_forall₂.1 hstep))),
      block_matches hbody⟩
  case forGeneric.forGeneric => exact ⟨matches_values h.1.2, block_matches h.2⟩
  case importFrom.importFrom => exact ⟨matches_singles (.cons h.2 .nil), .nil⟩
  case intrinsic.intrinsic => exact ⟨.cons ⟨h.1, rfl⟩ (matches_values h.2), .nil⟩
termination_by structural kind

theorem funcBody_matches : ∀ {func func' : FuncBody}, e.funcBody func func' →
    List.Forall₂ e.Matches (func.nested.flatMap fun s => s.kind.occurrences)
      (func'.nested.flatMap fun s => s.kind.occurrences)
  | ⟨_, _, _⟩, ⟨_, _, _⟩, h => by
    simp only [funcBody, Bool.and_eq_true] at h
    exact block_matches h.2
termination_by structural func => func

/-- Conditions match conditions, and lists lists. -/
theorem ifArm_matches : ∀ {arm arm' : IfArm}, e.ifArm arm arm' →
    List.Forall₂ e.Matches (singles arm.conditions) (singles arm'.conditions) ∧
      List.Forall₂ e.Matches (arm.nested.flatMap fun s => s.kind.occurrences)
        (arm'.nested.flatMap fun s => s.kind.occurrences)
  | ⟨_, _, _, _⟩, ⟨_, _, _, _⟩, h => by
    simp only [ifArm, Bool.and_eq_true] at h
    have hotherwise := elseArm_matches h.2
    simp only [IfArm.nested, List.flatMap_append]
    exact ⟨.cons ⟨h.1.1, rfl⟩ hotherwise.1, List.rel_append (block_matches h.1.2) hotherwise.2⟩
termination_by structural arm => arm

theorem elseArm_matches {arm arm' : ElseArm} (h : e.elseArm arm arm') :
    List.Forall₂ e.Matches (singles arm.conditions) (singles arm'.conditions) ∧
      List.Forall₂ e.Matches (arm.nested.flatMap fun s => s.kind.occurrences)
        (arm'.nested.flatMap fun s => s.kind.occurrences) := by
  cases arm <;> cases arm' <;> simp only [elseArm, Bool.false_eq_true] at h
  case absent.absent => exact ⟨.nil, .nil⟩
  case elseIf.elseIf => exact ifArm_matches h
  case elseBlock.elseBlock => exact ⟨.nil, block_matches h⟩
termination_by structural arm

/-- **Lists that are the same** have matching occurrences at every depth. -/
theorem block_matches : ∀ {body body' : List Stmt}, e.block body body' →
    List.Forall₂ e.Matches (Block.occurrences body) (Block.occurrences body')
  | [], body', h => by
    rw [block] at h
    rw [occurrences_of_isIgnored h]
    exact .nil
  | ⟨kind, line⟩ :: rest, body', h => by
    rw [block] at h
    split at h
    · rw [occurrences_cons_of_isIgnored ‹_›]
      exact block_matches h
    · rw [← occurrences_dropWhile body']
      split at h
      · cases h
      · rename_i hdrop
        rw [Bool.and_eq_true] at h
        have hkind := stmtKind_matches h.1
        rw [hdrop, Block.occurrences_cons, Block.occurrences_cons]
        exact List.rel_append hkind.1 (List.rel_append hkind.2 (block_matches h.2))
termination_by structural body => body

end

/-- **Tables** match entry by entry, although one of them may have its keyed
entries elsewhere: the other one is settled. -/
theorem table_matches {t t' : Table} (h : e.table t t') (ht : t'.Settled) :
    List.Forall₂ e.Matches t.occurrences t'.occurrences := by
  rw [table, Bool.and_eq_true] at h
  refine List.rel_append (List.rel_flatMap (isEqv_iff_forall₂.1 h.2) fun entry entry' hentry => ?_) ?_
  · obtain ⟨hkey, hvalue⟩ := Bool.and_eq_true_iff.1 hentry
    exact matches_singles (.cons hkey (.cons hvalue .nil))
  · have hpositional := isEqv_iff_forall₂.1 h.1
    by_cases hnone : t'.positional = []
    · rw [hnone] at hpositional ⊢
      rw [List.forall₂_nil_right_iff.1 hpositional]
      exact .nil
    · have hplace : t'.lastPlace = t.lastPlace.settled := by
        rw [ht hnone, Table.lastPlace]
        split <;> rfl
      rw [hplace]
      exact matches_list hpositional

theorem element_matches {x y : Element} (h : e.element x y) :
    List.Forall₂ e.Matches (singles (Expr.atom (.element x)).children)
      (singles (Expr.atom (.element y)).children) := by
  simp only [element, Bool.and_eq_true] at h
  obtain ⟨⟨-, hproperties⟩, hchildren⟩ := h
  refine matches_singles (List.rel_append (List.rel_map (fun _ _ hproperty => ?_)
    (isEqv_iff_forall₂.1 hproperties)) ?_)
  · exact (Bool.and_eq_true_iff.1 hproperty).2
  · cases hx : x.children <;> cases hy : y.children <;> simp only [hx, hy, Bool.false_eq_true] at hchildren
    · exact .nil
    · exact isEqv_iff_forall₂.1 hchildren

/-- **Nodes that are the same** have matching occurrences, if the second is
settled. -/
theorem expr_matches {x y : Expr} (h : e.expr x y) (hy : y.Settled) :
    List.Forall₂ e.Matches x.occurrences y.occurrences := by
  rcases x with x | x <;> rcases y with y | y <;> cases x <;> cases y <;>
    simp only [expr, Bool.and_eq_true, Bool.false_eq_true] at h
  case atom.atom.table.table => exact table_matches h hy
  case atom.atom.element.element => exact element_matches h
  case atom.atom.func.func =>
    rw [Expr.occurrences, Expr.occurrences, Block.occurrences, Block.occurrences,
      ← FuncBody.nested_eq, ← FuncBody.nested_eq]
    exact funcBody_matches h
  case arith.arith.binary.binary =>
    exact matches_singles (.cons h.1.2 (.cons h.2 .nil))
  case arith.arith.unary.unary | arith.arith.member.member =>
    exact matches_singles (.cons h.2 .nil)
  case arith.arith.subscript.subscript =>
    exact matches_singles (.cons h.1 (.cons h.2 .nil))
  case arith.arith.call.call => exact .cons ⟨h.1.2, rfl⟩ (matches_values h.2)
  case arith.arith.assign.assign => exact matches_singles (.cons h.1.2 (.cons h.2 .nil))
  all_goals exact .nil

/-- Whether a node gives many values is compared with it. -/
theorem spreads_of_expr {x y : Expr} (h : e.expr x y) : y.spreads = x.spreads := by
  rcases x with x | x <;> rcases y with y | y <;> cases x <;> cases y <;> first | rfl | cases h

end Comparison

/-! ## Occurrences beside each other -/

/-- Ids that compare as the same have nodes that do. -/
theorem Arena.exists_expr_of_sameWithin {a b : Arena} {i j : ExprId} :
    ∀ {n : ℕ}, a.sameWithin b n i j → ∃ m, (a.sameWithin b m).expr (a.get i) (b.get j)
  | m + 1, h => ⟨m, h⟩

namespace Chunk

/-- Occurrences in two chunks at the end of the same path from the body. -/
inductive Beside (c d : Chunk) : Occurrence → Occurrence → Prop
  | body {o p : Occurrence} :
    (o, p) ∈ (Block.occurrences c.body).zip (Block.occurrences d.body) → c.Beside d o p
  | child {o p o' p' : Occurrence} : c.Beside d o p →
    (o', p') ∈ (c.arena.get o.id).occurrences.zip (d.arena.get p.id).occurrences → c.Beside d o' p'

variable {c d : Chunk} {o p : Occurrence}

/-- **What stands beside each other is the same**, and settled. -/
theorem Beside.matches (hsame : c.same d) (hd : d.arena.Settled) (h : c.Beside d o p) :
    ∃ n, (c.arena.sameWithin d.arena n).Matches o p := by
  induction h with
  | body h => exact ⟨_, (List.forall₂_iff_zip.1 (Comparison.block_matches hsame)).2 h⟩
  | @child o p _ _ _ h ih =>
    obtain ⟨_, hop, -⟩ := ih
    obtain ⟨n, hexpr⟩ := Arena.exists_expr_of_sameWithin hop
    exact ⟨n, (List.forall₂_iff_zip.1 (Comparison.expr_matches hexpr (hd p.id))).2 h⟩

theorem Beside.spreads (hsame : c.same d) (hd : d.arena.Settled) (h : c.Beside d o p) :
    (d.arena.get p.id).spreads = (c.arena.get o.id).spreads := by
  obtain ⟨_, hop, -⟩ := h.matches hsame hd
  obtain ⟨_, hexpr⟩ := Arena.exists_expr_of_sameWithin hop
  exact Comparison.spreads_of_expr hexpr

/-- Chunks that hold as many occurrences wherever they have any beside each
other. -/
structure Aligned (c d : Chunk) : Prop where
  body : (Block.occurrences c.body).length = (Block.occurrences d.body).length
  node : ∀ o p, c.Beside d o p →
    (c.arena.get o.id).occurrences.length = (d.arena.get p.id).occurrences.length

/-- **Chunks that are the same** have occurrences in the same order at every depth. -/
theorem aligned_of_same (hsame : c.same d) (hd : d.arena.Settled) : c.Aligned d := by
  refine ⟨(Comparison.block_matches hsame).length_eq, fun o p hop => ?_⟩
  obtain ⟨_, hsame', -⟩ := hop.matches hsame hd
  obtain ⟨_, hexpr⟩ := Arena.exists_expr_of_sameWithin hsame'
  exact (Comparison.expr_matches hexpr (hd p.id)).length_eq

theorem Beside.symm (h : c.Beside d o p) : d.Beside c p o := by
  have hswap {o p : Occurrence} {os ps : List Occurrence} (h : (o, p) ∈ os.zip ps) :
      (p, o) ∈ ps.zip os := by
    rw [← List.zip_swap]
    exact List.mem_map_of_mem h
  induction h with
  | body h => exact .body (hswap h)
  | child _ h ih => exact ih.child (hswap h)

namespace Aligned

theorem symm (h : c.Aligned d) : d.Aligned c :=
  ⟨h.body.symm, fun o p hop => (h.node p o hop.symm).symm⟩

/-- **Every id that is reached** stands beside one. -/
theorem exists_beside (h : c.Aligned d) {i : ExprId} (hi : c.Reaches i) :
    ∃ o p, c.Beside d o p ∧ o.id = i := by
  have hpair {os ps : List Occurrence} (hlength : os.length = ps.length) {x : ExprId}
      (hx : x ∈ os.map Occurrence.id) : ∃ o p, (o, p) ∈ os.zip ps ∧ o.id = x := by
    rw [← List.map_fst_zip hlength.le, List.map_map] at hx
    obtain ⟨⟨o, p⟩, hop, rfl⟩ := List.mem_map.1 hx
    exact ⟨o, p, hop, rfl⟩
  obtain ⟨x, hx, hi⟩ := hi
  induction hi with
  | refl =>
    rw [← Block.map_occurrences] at hx
    obtain ⟨o, p, hop, rfl⟩ := hpair h.body hx
    exact ⟨o, p, .body hop, rfl⟩
  | tail _ hj ih =>
    obtain ⟨o, p, hop, rfl⟩ := ih
    obtain ⟨o', p', hop', rfl⟩ := hpair (h.node o p hop) (Expr.mem_occurrences hj)
    exact ⟨o', p', hop.child hop', rfl⟩

end Aligned

end Chunk

end LuaSugar
