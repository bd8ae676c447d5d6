import Mathlib
import LuaSugar.Proofs.Render.Spelled
import LuaSugar.Proofs.Syntax.Depth
import LuaSugar.Proofs.Syntax.Sameness
/-!
# The same syntax is rendered alike

What a comparison leaves out is what printing leaves out: lines, ignored
statements, which write nothing, and how keyed and positional entries of a
table interleave. Printing looks at an id in two ways, at what is printed
of it and at the kind of its node, so a printer follows a comparison if it
does not tell apart by either what compares as equal (`Printer.Follows`).
It then prints alike the statements and nodes that compare as equal, and by
induction along chains of ids two arenas print alike whatever is the same.
-/

namespace LuaSugar

/-- One number is written one way: both zeros as zero, every NaN as the
same quotient. -/
theorem Fragment.number_eq_of_same {x y : Double} (h : x.same y) :
    Fragment.number x = Fragment.number y := by
  simp only [Double.same, Bool.or_eq_true, Bool.and_eq_true, Bool.not_eq_true', beq_iff_eq] at h
  rcases h with ⟨hx, hy⟩ | ⟨⟨hx, hy⟩, rfl | ⟨hzero, hzero'⟩⟩
  · simp only [number, hx, hy, if_true]
  · rfl
  · have hfinite {z : Double} (hz : z.isZero) : z.isInfinite = false := by
      have hmagnitude : z.magnitude = 0 := of_decide_eq_true hz
      simp only [Double.isInfinite, hmagnitude]
      rfl
    simp only [number, hx, hy, hzero, hzero', hfinite hzero, hfinite hzero', if_true,
      Bool.false_eq_true, if_false]

/-! ## What printing looks at in a node -/

/-- What printing looks at in the node of an id, beside what is printed of
the id. -/
inductive Aspect where
  | name | element | unary | otherAtom | otherArith
  | string (bytes : List UInt8)
  | boolean (value : Bool)
deriving DecidableEq

def Expr.aspect : Expr → Aspect
  | .atom (.name _) => .name
  | .atom (.element _) => .element
  | .atom (.string bytes) => .string bytes
  | .atom (.boolean value) => .boolean value
  | .atom _ => .otherAtom
  | .arith (.unary _ _) => .unary
  | .arith _ => .otherArith

/-- Nodes that compare as equal show the same aspect. -/
theorem Comparison.aspect_eq {e : Comparison} {x y : Expr} (h : e.expr x y) : x.aspect = y.aspect := by
  rcases x with x | x <;> rcases y with y | y <;> cases x <;> cases y <;>
    simp only [expr, beq_iff_eq, Bool.false_eq_true] at h
  case atom.atom.string.string | atom.atom.boolean.boolean => rw [Expr.aspect, Expr.aspect, h]
  all_goals rfl

namespace Printer

section Aspect

variable (p : Printer) (indent : ℕ) (i : ExprId)

/-- What stands before a suffix is put in parentheses by the aspect of its node. -/
theorem subject_eq : p.subject indent i =
    if (p.node i).aspect = .name ∨ (p.node i).aspect = .otherArith then p.expr indent i
    else Fragment.parenthesized (p.expr indent i) := by
  unfold subject
  rcases p.node i with x | x <;> cases x <;> rfl

/-- A power puts parentheses around a prefix operator on its left, and nothing else does. -/
theorem leftOperand_eq (op : BinaryOp) : p.leftOperand indent op i =
    if op = .pow ∧ (p.node i).aspect = .unary then Fragment.parenthesized (p.expr indent i)
    else p.expr indent i := by
  unfold leftOperand
  rcases p.node i with x | x <;> cases x <;> cases op <;> rfl

/-- A key that is a name is written as one, and any other in brackets. -/
theorem field_eq (value : ExprId) : p.field indent i value =
    (match (p.node i).aspect with
      | .string bytes => ((fieldName? bytes).map fun name => [.name name]).getD
        (.op .leftBracket :: p.expr indent i ++ [.op .rightBracket])
      | _ => .op .leftBracket :: p.expr indent i ++ [.op .rightBracket]) ++
      p.layout.equals ++ p.expr indent value := by
  unfold field
  rcases p.node i with x | x <;> cases x <;> rfl

/-- A property that is `true` is written as its name alone. -/
theorem property_eq (name : String) : p.property indent name i =
    [.blank, .name name] ++ match (p.node i).aspect with
      | .boolean true => []
      | .string bytes => [.op .assign, .token (.string bytes)]
      | _ => .op .assign :: p.braced indent i := by
  unfold property
  rcases p.node i with x | x
  · cases x with
    | boolean value => cases value <;> rfl
    | _ => rfl
  · cases x <;> rfl

/-- A child that is an element is written as one, and any other in braces. -/
theorem child_eq : p.child indent i =
    if (p.node i).aspect = .element then p.expr indent i else p.braced indent i := by
  unfold child
  rcases p.node i with x | x <;> cases x <;> rfl

end Aspect

/-! ## Printers that follow a comparison -/

/-- Printers that print alike what compares as equal, and see the same
aspect of it. -/
structure Follows (p q : Printer) (e : Comparison) : Prop where
  layout : p.layout = q.layout
  expr : ∀ i j, e i j → ∀ indent, p.expr indent i = q.expr indent j
  node : ∀ i j, e i j → (p.node i).aspect = (q.node j).aspect

variable {p q : Printer} {e : Comparison}

/-- Lists that are compared item by item have the same images, if compared items do. -/
theorem map_eq_of_isEqv {α β : Type} {r : α → α → Bool} {f g : α → β} {xs ys : List α}
    (h : ∀ x y, r x y → f x = g y) (hxy : xs.isEqv ys r) : xs.map f = ys.map g := by
  have hforall := Comparison.isEqv_iff_forall₂.1 hxy
  induction hforall with
  | nil => rfl
  | cons hhead hrest ih =>
    rw [List.map_cons, List.map_cons, h _ _ hhead, ih (Comparison.isEqv_iff_forall₂.2 hrest)]

/-- A list of statements is written as a sequence of those that write
something. -/
theorem block_eq (indent : ℕ) (body : List Stmt) :
    p.block indent body = p.layout.sequence indent (p.statements indent body) := by
  cases body with
  | nil => simp [block, statements, Layout.sequence]
  | cons s rest => rw [block, statements]

/-- An ignored statement is written as a blank line, which is left out. -/
theorem filter_cons_of_isIgnored {indent : ℕ} {s : Stmt} (hs : s.isIgnored) (rest : List Stmt) :
    (p.statements indent (s :: rest)).filter (!·.isBlank) =
      (p.statements indent rest).filter (!·.isBlank) := by
  have hblank : p.statement indent s = [] := by
    obtain ⟨kind, line⟩ := s
    cases kind with
    | ignore => rw [statement, statementKind]
    | _ => cases hs
  rw [statements, hblank]
  rfl

/-- So are those in front of a list. -/
theorem filter_dropWhile (indent : ℕ) (body : List Stmt) :
    (p.statements indent (body.dropWhile Stmt.isIgnored)).filter (!·.isBlank) =
      (p.statements indent body).filter (!·.isBlank) := by
  induction body with
  | nil => rfl
  | cons s body ih =>
    cases hs : s.isIgnored with
    | false => rw [List.dropWhile_cons_of_neg (by simp [hs])]
    | true => rw [List.dropWhile_cons_of_pos hs, filter_cons_of_isIgnored hs, ih]

namespace Follows

/-- Lists of expressions that are compared item by item. -/
theorem exprs (h : Follows p q e) {xs ys : List ExprId} (hxy : e.exprs xs ys) (indent : ℕ) :
    p.exprs indent xs = q.exprs indent ys := by
  unfold Printer.exprs
  rw [h.layout, map_eq_of_isEqv (fun x y hxy => h.expr x y hxy indent) hxy]

/-- A block by the lines in it that are not blank. -/
theorem block (h : Follows p q e) {indent : ℕ} {body other : List Stmt}
    (hfilter : (p.statements indent body).filter (!·.isBlank) =
      (q.statements indent other).filter (!·.isBlank)) :
    p.block indent body = q.block indent other := by
  rw [block_eq, block_eq, h.layout]
  unfold Layout.sequence
  rw [hfilter]

mutual

/-- **Statements that compare as equal** are written alike. -/
theorem statementKind (h : Follows p q e) (indent : ℕ) {a b : StmtKind} (hab : e.stmtKind a b) :
    p.statementKind indent a = q.statementKind indent b := by
  cases a <;> cases b <;>
    simp only [Comparison.stmtKind, Bool.and_eq_true, beq_iff_eq, Bool.false_eq_true] at hab
  -- lists that compare as equal are empty together, and an empty one is
  -- printed in another way
  case ret.ret values others =>
    have hvalues := h.exprs hab indent
    cases values <;> cases others
    · rfl
    · cases hab
    · cases hab
    · simp only [Printer.statementKind, hvalues]
  case localFunction.localFunction =>
    obtain ⟨rfl, hfunc⟩ := hab
    simp only [Printer.statementKind, funcBody h indent _ hfunc]
  case function.function =>
    obtain ⟨rfl, hfunc⟩ := hab
    simp only [Printer.statementKind, funcBody h indent _ hfunc]
  case localDecl.localDecl names values _ others =>
    obtain ⟨rfl, hab⟩ := hab
    have hvalues := h.exprs hab indent
    have hnames := names_congr h.layout names
    cases values <;> cases others
    · simp only [Printer.statementKind, hnames]
    · cases hab
    · cases hab
    · simp only [Printer.statementKind, hnames, h.layout, hvalues]
  case compoundAssign.compoundAssign =>
    obtain ⟨⟨rfl, htarget⟩, hvalue⟩ := hab
    simp only [Printer.statementKind, h.layout, h.expr _ _ htarget, h.expr _ _ hvalue]
  case assign.assign =>
    simp only [Printer.statementKind, h.layout, h.exprs hab.1, h.exprs hab.2]
  case call.call => simpa only [Printer.statementKind] using h.expr _ _ hab indent
  case break_.break_ => rfl
  case doBlock.doBlock =>
    simp only [Printer.statementKind, h.layout, h.block (statements h (indent + 1) hab)]
  case whileLoop.whileLoop | repeatLoop.repeatLoop =>
    obtain ⟨hcondition, hbody⟩ := hab
    simp only [Printer.statementKind, h.layout, h.expr _ _ hcondition,
      h.block (statements h (indent + 1) hbody)]
  case ifChain.ifChain => simpa only [Printer.statementKind] using ifArm h indent .if_ hab
  case forNumeric.forNumeric start limit step _ _ start' limit' step' _ =>
    obtain ⟨⟨⟨⟨rfl, hstart⟩, hlimit⟩, hstep⟩, hbody⟩ := hab
    have hrange : e.exprs (start :: limit :: step.toList) (start' :: limit' :: step'.toList) := by
      simp only [Comparison.exprs, List.isEqv, hstart, hlimit, Bool.true_and]
      exact hstep
    simp only [Printer.statementKind, h.layout, h.exprs hrange,
      h.block (statements h (indent + 1) hbody)]
  case forGeneric.forGeneric names _ _ _ _ _ =>
    obtain ⟨⟨rfl, hiterators⟩, hbody⟩ := hab
    simp only [Printer.statementKind, h.layout, names_congr h.layout names, h.exprs hiterators,
      h.block (statements h (indent + 1) hbody)]
  case importFrom.importFrom binding _ _ _ =>
    obtain ⟨rfl, hsource⟩ := hab
    have hhead : p.importHead binding = q.importHead binding := by
      cases binding with
      | default name => rfl
      | named names => simp only [importHead, names_congr h.layout]
    simp only [Printer.statementKind, hhead, h.expr _ _ hsource]
  case intrinsic.intrinsic args _ others =>
    obtain ⟨hexpr, hab⟩ := hab
    have hargs := h.exprs hab indent
    cases args <;> cases others
    · simp only [Printer.statementKind, h.expr _ _ hexpr]
    · cases hab
    · cases hab
    · simp only [Printer.statementKind, h.expr _ _ hexpr, hargs]
termination_by structural a

/-- Functions with the same parameters, whose lists are compared. -/
theorem funcBody (h : Follows p q e) (indent : ℕ) (name : Option Fragment) :
    ∀ {f g : FuncBody}, e.funcBody f g → p.funcBody indent name f = q.funcBody indent name g
  | ⟨_, _, _⟩, ⟨_, _, _⟩, hfg => by
    simp only [Comparison.funcBody, Bool.and_eq_true, beq_iff_eq] at hfg
    obtain ⟨⟨rfl, rfl⟩, hbody⟩ := hfg
    simp only [Printer.funcBody, funcHead, h.layout, h.block (statements h (indent + 1) hbody)]
termination_by structural f => f

/-- Arms by condition, list and what comes behind. -/
theorem ifArm (h : Follows p q e) (indent : ℕ) (word : Keyword) :
    ∀ {a b : IfArm}, e.ifArm a b → p.ifArm indent word a = q.ifArm indent word b
  | ⟨_, _, _, _⟩, ⟨_, _, _, _⟩, hab => by
    simp only [Comparison.ifArm, Bool.and_eq_true] at hab
    obtain ⟨⟨hcondition, hbody⟩, hotherwise⟩ := hab
    simp only [Printer.ifArm, armHead, h.layout, h.expr _ _ hcondition,
      h.block (statements h (indent + 1) hbody), elseArm h indent hotherwise]
termination_by structural a => a

theorem elseArm (h : Follows p q e) (indent : ℕ) {a b : ElseArm} (hab : e.elseArm a b) :
    p.elseArm indent a = q.elseArm indent b := by
  cases a <;> cases b <;> simp only [Comparison.elseArm, Bool.false_eq_true] at hab
  case absent.absent => rfl
  case elseIf.elseIf => simpa only [Printer.elseArm] using ifArm h indent .elseif_ hab
  case elseBlock.elseBlock =>
    simp only [Printer.elseArm, h.layout, h.block (statements h (indent + 1) hab)]
termination_by structural a

/-- Of lists that compare as equal the statements that write something are
written alike, one by one. -/
theorem statements (h : Follows p q e) (indent : ℕ) : ∀ {a b : List Stmt}, e.block a b →
    (p.statements indent a).filter (!·.isBlank) = (q.statements indent b).filter (!·.isBlank)
  | [], b, hab => by
    rw [Comparison.block] at hab
    rw [← filter_dropWhile indent b, List.dropWhile_eq_nil_iff.2 (List.all_eq_true.1 hab)]
    rfl
  | ⟨kind, line⟩ :: rest, b, hab => by
    rw [Comparison.block] at hab
    split at hab
    · rename_i hs
      rw [filter_cons_of_isIgnored hs]
      exact statements h indent hab
    · split at hab
      · cases hab
      · rename_i s b' hdrop
        obtain ⟨hkind, hrest⟩ := Bool.and_eq_true_iff.1 hab
        obtain ⟨kind', line'⟩ := s
        rw [← filter_dropWhile indent b, hdrop, Printer.statements, Printer.statements,
          statement, statement, statementKind h indent hkind, List.filter_cons, List.filter_cons,
          statements h indent hrest]
termination_by structural a => a

end

/-! ## Nodes -/

/-- What stands before a suffix. -/
theorem subject (h : Follows p q e) {i j : ExprId} (hij : e i j) (indent : ℕ) :
    p.subject indent i = q.subject indent j := by
  rw [subject_eq, subject_eq, h.expr i j hij, h.node i j hij]

theorem leftOperand (h : Follows p q e) {i j : ExprId} (hij : e i j) (indent : ℕ) (op : BinaryOp) :
    p.leftOperand indent op i = q.leftOperand indent op j := by
  rw [leftOperand_eq, leftOperand_eq, h.expr i j hij, h.node i j hij]

/-- Keyed entries. -/
theorem field (h : Follows p q e) {k k' v v' : ExprId} (hk : e k k') (hv : e v v') (indent : ℕ) :
    p.field indent k v = q.field indent k' v' := by
  rw [field_eq, field_eq, h.layout, h.expr k k' hk, h.expr v v' hv, h.node k k' hk]

theorem braced (h : Follows p q e) {i j : ExprId} (hij : e i j) (indent : ℕ) :
    p.braced indent i = q.braced indent j := by
  rw [Printer.braced, Printer.braced, h.expr i j hij]

theorem property (h : Follows p q e) {i j : ExprId} (hij : e i j) (indent : ℕ) (name : String) :
    p.property indent name i = q.property indent name j := by
  rw [property_eq, property_eq, h.braced hij, h.node i j hij]

/-- Children of elements. -/
theorem child (h : Follows p q e) {i j : ExprId} (hij : e i j) (indent : ℕ) :
    p.child indent i = q.child indent j := by
  rw [child_eq, child_eq, h.braced hij, h.expr i j hij, h.node i j hij]

/-- **Tables are printed alike**: the keyed entries come first in both, wherever they stand. -/
theorem table (h : Follows p q e) {s t : Table} (hst : e.table s t) (indent : ℕ) :
    p.table indent s = q.table indent t := by
  rw [Comparison.table, Bool.and_eq_true] at hst
  obtain ⟨hpositional, hkeyed⟩ := hst
  have hfields := map_eq_of_isEqv
    (f := fun entry => p.field (indent + 1) entry.1 entry.2)
    (g := fun entry => q.field (indent + 1) entry.1 entry.2)
    (fun x y hxy => by
      obtain ⟨hkey, hvalue⟩ := Bool.and_eq_true_iff.1 hxy
      exact h.field hkey hvalue (indent + 1)) hkeyed
  unfold Printer.table
  rw [map_field, map_field, hfields, h.exprs hpositional, h.layout]

/-- Elements by their names, properties and children. -/
theorem element (h : Follows p q e) {x y : Element} (hxy : e.element x y) (indent : ℕ) :
    p.element indent x = q.element indent y := by
  simp only [Comparison.element, Bool.and_eq_true, beq_iff_eq] at hxy
  obtain ⟨⟨hname, hproperties⟩, hchildren⟩ := hxy
  have hproperties := map_eq_of_isEqv
    (f := fun property => p.property indent property.1 property.2)
    (g := fun property => q.property indent property.1 property.2)
    (fun x y hxy => by
      simp only [Bool.and_eq_true, beq_iff_eq] at hxy
      rw [hxy.1, h.property hxy.2]) hproperties
  unfold Printer.element
  rw [flatMap_property, flatMap_property, hproperties, hname]
  cases hx : x.children <;> cases hy : y.children <;>
    simp only [hx, hy, Bool.false_eq_true] at hchildren
  · rfl
  · have hinside := map_eq_of_isEqv (r := e) (fun x y hxy => h.child hxy indent) hchildren
    simp only [List.flatMap_def, hinside]

/-- **Operations are printed alike** if their operands are. -/
theorem arith (h : Follows p q e) {x y : Arith} (hxy : e.expr (.arith x) (.arith y)) (indent : ℕ) :
    p.arith indent x = q.arith indent y := by
  cases x <;> cases y <;>
    simp only [Comparison.expr, Bool.and_eq_true, beq_iff_eq, Bool.false_eq_true] at hxy
  case binary.binary =>
    obtain ⟨⟨rfl, hleft⟩, hright⟩ := hxy
    simp only [Printer.arith, h.layout, h.leftOperand hleft, h.expr _ _ hright]
  case unary.unary op _ _ _ =>
    obtain ⟨rfl, hoperand⟩ := hxy
    cases op <;> simp only [Printer.arith, h.expr _ _ hoperand]
  case member.member =>
    obtain ⟨rfl, hobject⟩ := hxy
    simp only [Printer.arith, h.subject hobject]
  case subscript.subscript =>
    simp only [Printer.arith, h.subject hxy.1, h.expr _ _ hxy.2]
  case call.call =>
    obtain ⟨⟨rfl, htarget⟩, hargs⟩ := hxy
    simp only [Printer.arith, h.subject htarget, h.exprs hargs]
  case assign.assign =>
    obtain ⟨⟨rfl, htarget⟩, hvalue⟩ := hxy
    simp only [Printer.arith, h.layout, h.expr _ _ htarget, h.expr _ _ hvalue]

/-- **Nodes that compare as equal** are written alike. -/
theorem expression (h : Follows p q e) {x y : Expr} (hxy : e.expr x y) (indent : ℕ) :
    p.expression indent x = q.expression indent y := by
  rcases x with x | x <;> rcases y with y | y
  · cases x <;> cases y <;> simp only [Comparison.expr, beq_iff_eq, Bool.false_eq_true] at hxy
    case number.number => exact Fragment.number_eq_of_same hxy
    case table.table => exact h.table hxy indent
    case element.element => exact h.element hxy indent
    case func.func => exact h.funcBody indent none hxy
    case nil.nil | vararg.vararg => rfl
    all_goals subst hxy
    case boolean.boolean value => cases value <;> rfl
    all_goals rfl
  · cases x <;> cases hxy
  · cases x <;> cases y <;> cases hxy
  · exact h.arith hxy indent

end Follows

end Printer

/-! ## Arenas -/

/-- At one depth, what compares as equal is printed alike. -/
theorem Arena.printerWithin_follows (a b : Arena) (ℓ : Layout) : ∀ n : ℕ,
    Printer.Follows (a.printerWithin ℓ n) (b.printerWithin ℓ n) (a.sameWithin b n)
  | 0 => ⟨rfl, fun _ _ h => (Bool.false_ne_true h).elim, fun _ _ h => (Bool.false_ne_true h).elim⟩
  | n + 1 => ⟨rfl, fun _ _ hij indent => (printerWithin_follows a b ℓ n).expression hij indent,
      fun _ _ hij => Comparison.aspect_eq hij⟩

namespace Chunk.WellFormed

variable {c d : Chunk}

/-- **How deep ids are followed** in printing makes no difference beyond
the arena's size. -/
theorem block_printerWithin (h : c.WellFormed) (ℓ : Layout) {n : ℕ} (hn : c.arena.size < n)
    (indent : ℕ) :
    (c.arena.printerWithin ℓ n).block indent c.body = (c.arena.printer ℓ).block indent c.body := by
  have hlayout (n : ℕ) : (c.arena.printerWithin ℓ n).layout = ℓ := by cases n <;> rfl
  have hnode (n : ℕ) : (c.arena.printerWithin ℓ n).node = c.arena.get := by cases n <;> rfl
  refine Printer.block_congr ((hlayout _).trans (hlayout _).symm) indent c.body fun indent x hx => ?_
  have hdepth := h.depth_eq (F := fun n i indent => (c.arena.printerWithin ℓ n).expr indent i)
    (fun n m i ih => ?_) hn (Nat.lt_succ_self _) (c.reaches_of_mem_body hx)
  · exact congrFun hdepth indent
  · funext indent
    exact Printer.expression_congr ((hlayout n).trans (hlayout m).symm)
      ((hnode n).trans (hnode m).symm) indent (c.arena.get i) fun indent j hj =>
        congrFun (ih j hj) indent

/-- **The same syntax is rendered alike**, in each layout. -/
theorem render_eq (hc : c.WellFormed) (hd : d.WellFormed) (h : c.same d) (ℓ : Layout) :
    ℓ.render c = ℓ.render d := by
  -- a depth that is enough for both
  have hleft : c.arena.size < c.arena.size + d.arena.size + 1 := by omega
  have hright : d.arena.size < c.arena.size + d.arena.size + 1 := by omega
  have hfollows := Arena.printerWithin_follows c.arena d.arena ℓ (c.arena.size + d.arena.size + 1)
  have hblock := hfollows.block (hfollows.statements 0 ((hc.same_iff d hleft).1 h))
  rw [hc.block_printerWithin ℓ hleft, hd.block_printerWithin ℓ hright] at hblock
  unfold Layout.render Layout.renderBlock
  rw [hblock]

end Chunk.WellFormed

namespace Chunk

/-- **Sameness is an equivalence that rendering respects**, over all
well-formed chunks in whatever arenas. -/
theorem same_equivalence :
    Equivalence (fun c d : {c : Chunk // c.WellFormed} => c.1.same d.1) ∧
      ∀ c d : {c : Chunk // c.WellFormed}, c.1.same d.1 →
        ∀ ℓ : Layout, ℓ.render c.1 = ℓ.render d.1 := by
  refine ⟨⟨fun c => c.2.same_self, fun {c d} h => c.2.same_symm d.2 h, fun {c d k} h h' => ?_⟩,
    fun c d h ℓ => c.2.render_eq d.2 h ℓ⟩
  exact c.2.same_trans d.2 k.2 h h'

/-- One table, returned twice. -/
def sharedTable : Chunk :=
  ⟨⟨#[.atom (.number ⟨0x7ff8000000000000⟩), .ofName "x",
    .atom (.table ⟨[(.positional 1, ⟨1⟩), (.expr ⟨1⟩, ⟨0⟩)]⟩)]⟩, [⟨.ret [⟨2⟩, ⟨2⟩], 1⟩]⟩

/-- Two tables with another NaN and the keyed entry first, behind an ignored
statement. -/
def twoTables : Chunk :=
  ⟨⟨#[.ofName "x", .atom (.number ⟨0xfff8000000000001⟩), .ofName "x",
    .atom (.table ⟨[(.expr ⟨0⟩, ⟨1⟩), (.positional 1, ⟨2⟩)]⟩),
    .atom (.table ⟨[(.expr ⟨2⟩, ⟨1⟩), (.positional 1, ⟨2⟩)]⟩)]⟩,
    [⟨.ignore, 1⟩, ⟨.ret [⟨3⟩, ⟨4⟩], 2⟩]⟩

/-- Tables with their entries in another order are the same, and are rendered alike. -/
theorem same_equivalence_tables :
    sharedTable.WellFormed ∧ twoTables.WellFormed ∧ sharedTable.same twoTables ∧
      twoTables.same sharedTable ∧
      Layout.minify.render twoTables = Layout.minify.render sharedTable ∧
      Layout.minify.render sharedTable = "return {[x]=(0/0);x},{[x]=(0/0);x}\n" := by
  have hshared : sharedTable.WellFormed := .of_lower (by decide +kernel) (by decide +kernel)
  have htwo : twoTables.WellFormed := .of_lower (by decide +kernel) (by decide +kernel)
  have hsame : sharedTable.same twoTables := by decide +kernel
  have hsymm := same_equivalence.1.symm (x := ⟨sharedTable, hshared⟩) (y := ⟨twoTables, htwo⟩) hsame
  exact ⟨hshared, htwo, hsame, hsymm,
    same_equivalence.2 ⟨twoTables, htwo⟩ ⟨sharedTable, hshared⟩ hsymm .minify, by decide +kernel⟩

end Chunk

end LuaSugar
