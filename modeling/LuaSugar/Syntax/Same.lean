import LuaSugar.Syntax.Arena

/-!
# Structural sameness

Two chunks are the same program text, whatever their arenas, if they agree in everything that
rendering and parsing again preserves. What may differ: lines, ignored statements, the ids
themselves, and in a table constructor how keyed and positional entries interleave.

As in rendering, comparison of statements takes comparison of expressions as given, and
`Arena.sameWithin` ties the two as deep as chains of ids can be.
-/

namespace LuaSugar

/-- How pairs of expressions are compared. -/
abbrev Comparison := ExprId → ExprId → Bool

namespace Comparison

variable (e : Comparison)

def exprs (a b : List ExprId) : Bool := a.isEqv b e

mutual

def stmtKind : StmtKind → StmtKind → Bool
  | .ret a, .ret b => e.exprs a b
  | .localFunction n f, .localFunction m g => n == m && funcBody f g
  | .function p f, .function q g => p == q && funcBody f g
  | .localDecl n a, .localDecl m b => n == m && e.exprs a b
  | .compoundAssign t o v, .compoundAssign t' o' v' => o == o' && e t t' && e v v'
  | .assign t v, .assign t' v' => e.exprs t t' && e.exprs v v'
  | .call a, .call b => e a b
  | .break_, .break_ => true
  | .doBlock a, .doBlock b => block a b
  | .whileLoop c a, .whileLoop c' b => e c c' && block a b
  | .repeatLoop a c, .repeatLoop b c' => e c c' && block a b
  | .ifChain a, .ifChain b => ifArm a b
  | .forNumeric n s l st a, .forNumeric n' s' l' st' b =>
    n == n' && e s s' && e l l' && e.exprs st.toList st'.toList && block a b
  | .forGeneric n i a, .forGeneric m j b => n == m && e.exprs i j && block a b
  | .importFrom n s, .importFrom m t => n == m && e s t
  | .intrinsic i a, .intrinsic j b => e i j && e.exprs a b
  | _, _ => false

def funcBody : FuncBody → FuncBody → Bool
  | ⟨p, v, a⟩, ⟨q, w, b⟩ => p == q && v == w && block a b

def ifArm : IfArm → IfArm → Bool
  | ⟨c, a, _, o⟩, ⟨c', b, _, o'⟩ => e c c' && block a b && elseArm o o'

def elseArm : ElseArm → ElseArm → Bool
  | .absent, .absent => true
  | .elseIf a, .elseIf b => ifArm a b
  | .elseBlock a _, .elseBlock b _ => block a b
  | _, _ => false

/-- Statement lists, ignored statements aside. -/
def block : List Stmt → List Stmt → Bool
  | [], b => b.all Stmt.isIgnored
  | ⟨kind, line⟩ :: a, b =>
    if Stmt.isIgnored ⟨kind, line⟩ then block a b
    else match b.dropWhile Stmt.isIgnored with
      | [] => false
      | s :: b => stmtKind kind s.kind && block a b

end

def table (a b : Table) : Bool :=
  e.exprs a.positional b.positional &&
    a.keyed.isEqv b.keyed fun (k, v) (k', v') => e k k' && e v v'

def element (a b : Element) : Bool :=
  a.name == b.name &&
    a.properties.isEqv b.properties (fun (n, v) (n', v') => n == n' && e v v') &&
    match a.children, b.children with
    | none, none => true
    | some a, some b => e.exprs a b
    | _, _ => false

def expr : Expr → Expr → Bool
  | .atom (.number x), .atom (.number y) => x.same y
  | .atom (.string a), .atom (.string b) => a == b
  | .atom (.boolean a), .atom (.boolean b) => a == b
  | .atom .nil, .atom .nil => true
  | .atom .vararg, .atom .vararg => true
  | .atom (.name a), .atom (.name b) => a == b
  | .atom (.table a), .atom (.table b) => e.table a b
  | .atom (.element a), .atom (.element b) => e.element a b
  | .atom (.func f), .atom (.func g) => e.funcBody f g
  | .arith (.binary o l r), .arith (.binary o' l' r') => o == o' && e l l' && e r r'
  | .arith (.unary o a), .arith (.unary o' b) => o == o' && e a b
  | .arith (.member o n), .arith (.member o' n') => n == n' && e o o'
  | .arith (.subscript o k), .arith (.subscript o' k') => e o o' && e k k'
  | .arith (.call t m a), .arith (.call t' m' b) => m == m' && e t t' && e.exprs a b
  | .arith (.assign o t v), .arith (.assign o' t' v') => o == o' && e t t' && e v v'
  | _, _ => false

end Comparison

namespace Arena

/-- Whether two expressions agree along chains of at most `depth` ids. -/
def sameWithin (a b : Arena) : Nat → Comparison
  | 0 => fun _ _ => false
  | depth + 1 => fun i j => (a.sameWithin b depth).expr (a.get i) (b.get j)

end Arena

/-- Structural sameness of chunks. -/
def Chunk.same (c d : Chunk) : Bool :=
  (c.arena.sameWithin d.arena (c.arena.size + 1)).block c.body d.body

end LuaSugar
