import Mathlib
import LuaSugar.Lexeme
import LuaSugar.Proofs.Syntax.Growth
/-!
# Where a chunk is written

Each part of a chunk may have a place among tokens: the parts of a node or
of a statement are written one behind the other, between the tokens at which
that begins and ends. A name and a string are one token, and in a call with
one argument nothing but parentheses stands between what is called and the
argument. A statement has the line of the token that it begins with.

`Laid` says so of a part and two places: it is written from the one up to
the other.
-/

namespace LuaSugar

/-! ## Parts in written order -/

/-- What a node or a statement is made of. -/
inductive Part where
  | expr (x : ExprId)
  /-- The key of an entry, which may be written as a name. -/
  | key (x : ExprId)
  | list (block : Block)

mutual

/-- Conditions and lists of a chain of arms as they are written. -/
def IfArm.parts : IfArm → List Part
  | ⟨condition, body, _, otherwise⟩ => .expr condition :: .list body :: otherwise.parts

def ElseArm.parts : ElseArm → List Part
  | .absent => []
  | .elseIf arm => arm.parts
  | .elseBlock body _ => [.list body]

end

/-- The expressions and lists of a statement as they are written. -/
def StmtKind.parts : StmtKind → List Part
  | .ret values | .localDecl _ values => values.map .expr
  | .localFunction _ func | .function _ func => [.list func.body]
  | .compoundAssign target _ value => [.expr target, .expr value]
  | .assign targets values => targets.map .expr ++ values.map .expr
  | .call root => [.expr root]
  | .doBlock body => [.list body]
  | .whileLoop condition body => [.expr condition, .list body]
  | .repeatLoop body condition => [.list body, .expr condition]
  | .ifChain arm => arm.parts
  | .forNumeric _ start limit step body =>
    .expr start :: .expr limit :: (step.toList.map .expr ++ [.list body])
  | .forGeneric _ iterators body => iterators.map .expr ++ [.list body]
  | .importFrom _ source => [.expr source]
  | .intrinsic expr args => .expr expr :: args.map .expr
  | .break_ | .ignore => []

/-- The entries of a table as they are written. -/
def Table.parts (t : Table) : List Part := t.entries.flatMap fun (key, value) => match key with
  | .positional _ => [.expr value]
  | .expr key => [.key key, .expr value]

/-- The children of a node as they are written, or the body of a literal. -/
def Expr.parts : Expr → List Part
  | .atom (.table t) => t.parts
  | .atom (.func func) => [.list func.body]
  | e => e.children.map .expr

/-- Nodes of which more is said than where their parts are. -/
def Expr.isSpelled : Expr → Bool
  | .atom (.name _) | .atom (.string _) | .arith (.call _ none [_]) => true
  | _ => false

/-! ## Parts, roots and lists -/

/-- Parts are expressions and lists that are woven together; each of both
keep their order. -/
inductive Woven : List Part → List ExprId → List Block → Prop
  | nil : Woven [] [] []
  | expr {x parts roots blocks} : Woven parts roots blocks →
      Woven (.expr x :: parts) (x :: roots) blocks
  | list {b parts roots blocks} : Woven parts roots blocks →
      Woven (.list b :: parts) roots (b :: blocks)

namespace Woven

variable {parts : List Part} {roots : List ExprId} {blocks : List Block}

/-- Expressions in front of what is woven. -/
theorem exprs (h : Woven parts roots blocks) :
    ∀ xs : List ExprId, Woven (xs.map .expr ++ parts) (xs ++ roots) blocks
  | [] => h
  | _ :: xs => .expr (h.exprs xs)

/-- Expressions alone. -/
theorem of_exprs (xs : List ExprId) : Woven (xs.map .expr) xs [] := by
  simpa using Woven.nil.exprs xs

/-- Roots keep their order among the parts. -/
theorem roots_sublist (h : Woven parts roots blocks) : (roots.map .expr).Sublist parts := by
  induction h with
  | nil => exact .slnil
  | expr _ ih => exact ih.cons_cons _
  | list _ ih => exact ih.cons _

theorem blocks_sublist (h : Woven parts roots blocks) : (blocks.map .list).Sublist parts := by
  induction h with
  | nil => exact .slnil
  | expr _ ih => exact ih.cons _
  | list _ ih => exact ih.cons_cons _

/-- **All parts are there**, the lists and the roots, each once. -/
theorem perm (h : Woven parts roots blocks) :
    parts.Perm (blocks.map .list ++ roots.map .expr) := by
  induction h with
  | nil => exact .refl _
  | expr _ ih => exact (ih.cons _).trans List.perm_middle.symm
  | list _ ih => exact ih.cons _

end Woven

mutual

/-- The parts of an arm alternate: a condition, its list, and what comes behind. -/
theorem IfArm.woven : ∀ arm : IfArm, Woven arm.parts arm.conditions arm.bodies
  | ⟨_, _, _, otherwise⟩ => .expr (.list otherwise.woven)

theorem ElseArm.woven : ∀ arm : ElseArm, Woven arm.parts arm.conditions arm.bodies
  | .absent => .nil
  | .elseIf arm => arm.woven
  | .elseBlock _ _ => .list .nil

end

/-- **The parts of a statement** are its roots and its lists. -/
theorem StmtKind.woven : ∀ kind : StmtKind, Woven kind.parts kind.roots kind.blocks
  | .ret values | .localDecl _ values => .of_exprs values
  | .localFunction _ _ | .function _ _ | .doBlock _ => .list .nil
  | .compoundAssign _ _ _ => .expr (.expr .nil)
  | .assign targets values => (Woven.of_exprs values).exprs targets
  | .call _ | .importFrom _ _ => .expr .nil
  | .whileLoop _ _ => .expr (.list .nil)
  | .repeatLoop _ _ => .list (.expr .nil)
  | .ifChain arm => arm.woven
  | .forNumeric _ _ _ none _ => .expr (.expr (.list .nil))
  | .forNumeric _ _ _ (some _) _ => .expr (.expr (.expr (.list .nil)))
  | .forGeneric _ iterators body => by
    have hwoven := (Woven.list (b := body) .nil).exprs iterators
    rwa [List.append_nil] at hwoven
  | .intrinsic _ args => .expr (.of_exprs args)
  | .break_ | .ignore => .nil

/-- A root is one of the parts. -/
theorem StmtKind.expr_mem_parts {kind : StmtKind} {x : ExprId} (hx : x ∈ kind.roots) :
    .expr x ∈ kind.parts :=
  kind.woven.roots_sublist.subset (List.mem_map_of_mem hx)

theorem StmtKind.list_mem_parts {kind : StmtKind} {b : Block} (hb : b ∈ kind.blocks) :
    .list b ∈ kind.parts :=
  kind.woven.blocks_sublist.subset (List.mem_map_of_mem hb)

/-! ## Places -/

section Places

variable (tokens : List Token)

/-- The kind of the token at a place. -/
def kindAt (p : ℕ) : Option TokenKind := tokens[p]?.map Token.kind

/-- The line of the token at a place; behind the last token it is that one's
line. -/
def lineAt (p : ℕ) : ℕ := ((tokens[p]?.or tokens.getLast?).map Token.line).getD 1

/-- From one place to another there are only parentheses. -/
def Parens (p q : ℕ) : Prop := ∀ k, p ≤ k → k < q →
  kindAt tokens k = some (.operator .leftParen) ∨ kindAt tokens k = some (.operator .rightParen)

mutual

/-- A part is written from one place to another. -/
inductive Laid (a : Arena) : Part → ℕ → ℕ → Prop
  | name {x text p} : x.index < a.size → a.get x = .atom (.name text) →
      kindAt tokens p = some (.name text) → Laid a (.expr x) p (p + 1)
  | string {x bytes p} : x.index < a.size → a.get x = .atom (.string bytes) →
      kindAt tokens p = some (.string bytes) → Laid a (.expr x) p (p + 1)
  | call {x target arg p m m' n q} : x.index < a.size →
      a.get x = .arith (.call target none [arg]) → Laid a (.expr target) p m → m ≤ m' →
      Parens tokens m m' → Laid a (.expr arg) m' n → n ≤ q → Laid a (.expr x) p q
  | node {x p q} : x.index < a.size → (a.get x).isSpelled = false → LaidAll a (a.get x).parts p q →
      Laid a (.expr x) p q
  | parens {x p q} : kindAt tokens p = some (.operator .leftParen) → Laid a (.expr x) (p + 1) q →
      kindAt tokens q = some (.operator .rightParen) → Laid a (.expr x) p (q + 1)
  | named {x text p} : x.index < a.size → a.get x = .ofText text →
      kindAt tokens p = some (.name text) → Laid a (.key x) p (p + 1)
  | key {x p q} : Laid a (.expr x) p q → Laid a (.key x) p q
  | list {block p q} : LaidList a block p q → Laid a (.list block) p q

/-- Parts are written one behind the other. -/
inductive LaidAll (a : Arena) : List Part → ℕ → ℕ → Prop
  | nil {p q} : p ≤ q → LaidAll a [] p q
  | cons {part parts p m n q} : p ≤ m → Laid a part m n → LaidAll a parts n q →
      LaidAll a (part :: parts) p q

/-- Statements are written one behind the other, each on its line. -/
inductive LaidList (a : Arena) : Block → ℕ → ℕ → Prop
  | nil {p q} : p ≤ q → LaidList a [] p q
  | cons {s l p m n q} : p ≤ m → s.line = lineAt tokens m → LaidAll a s.kind.parts m n →
      LaidList a l n q → LaidList a (s :: l) p q

end

end Places

variable {tokens : List Token} {a a' : Arena} {part : Part} {parts parts' : List Part} {l l' : Block}
variable {p m q : ℕ}

/-! ## Growing -/

mutual

/-- A part ends no earlier than it begins. -/
theorem Laid.le : ∀ {part p q}, Laid tokens a part p q → p ≤ q
  | _, _, _, .name _ _ _ | _, _, _, .string _ _ _ | _, _, _, .named _ _ _ => Nat.le_succ _
  | _, _, _, .call _ _ h hle _ h' hle' => h.le.trans (hle.trans (h'.le.trans hle'))
  | _, _, _, .node _ _ h => h.le
  | _, _, _, .parens _ h _ => (Nat.le_succ _).trans (h.le.trans (Nat.le_succ _))
  | _, _, _, .key h => h.le
  | _, _, _, .list h => h.le

theorem LaidAll.le : ∀ {parts p q}, LaidAll tokens a parts p q → p ≤ q
  | _, _, _, .nil hle => hle
  | _, _, _, .cons hle h h' => hle.trans (h.le.trans h'.le)

theorem LaidList.le : ∀ {l p q}, LaidList tokens a l p q → p ≤ q
  | _, _, _, .nil hle => hle
  | _, _, _, .cons hle _ h h' => hle.trans (h.le.trans h'.le)

end

mutual

/-- **What is laid stays laid** as the arena grows: ids keep their nodes. -/
theorem Laid.mono (hext : a.Extends a') : ∀ {part p q}, Laid tokens a part p q → Laid tokens a' part p q
  | _, _, _, .name hx hget hkind => .name (hx.trans_le hext.size_le) (hext.get_eq _ hx ▸ hget) hkind
  | _, _, _, .string hx hget hkind =>
    .string (hx.trans_le hext.size_le) (hext.get_eq _ hx ▸ hget) hkind
  | _, _, _, .call hx hget h hle hparens h' hle' =>
    .call (hx.trans_le hext.size_le) (hext.get_eq _ hx ▸ hget) (h.mono hext) hle hparens
      (h'.mono hext) hle'
  | _, _, _, .node hx hspelled h => by
    have hall := h.mono hext
    rw [← hext.get_eq _ hx] at hspelled hall
    exact .node (hx.trans_le hext.size_le) hspelled hall
  | _, _, _, .parens hopen h hclose => .parens hopen (h.mono hext) hclose
  | _, _, _, .named hx hget hkind => .named (hx.trans_le hext.size_le) (hext.get_eq _ hx ▸ hget) hkind
  | _, _, _, .key h => .key (h.mono hext)
  | _, _, _, .list h => .list (h.mono hext)

theorem LaidAll.mono (hext : a.Extends a') :
    ∀ {parts p q}, LaidAll tokens a parts p q → LaidAll tokens a' parts p q
  | _, _, _, .nil hle => .nil hle
  | _, _, _, .cons hle h h' => .cons hle (h.mono hext) (h'.mono hext)

theorem LaidList.mono (hext : a.Extends a') :
    ∀ {l p q}, LaidList tokens a l p q → LaidList tokens a' l p q
  | _, _, _, .nil hle => .nil hle
  | _, _, _, .cons hle hline h h' => .cons hle hline (h.mono hext) (h'.mono hext)

end

/-- Parts may be laid anywhere within wider bounds. -/
theorem LaidAll.widen (h : LaidAll tokens a parts p q) {p' q' : ℕ} (hp : p' ≤ p) (hq : q ≤ q') :
    LaidAll tokens a parts p' q' := by
  induction parts generalizing p p' with
  | nil =>
    cases h with
    | nil hle => exact .nil (hp.trans (hle.trans hq))
  | cons part parts ih =>
    cases h with
    | cons hle h h' => exact .cons (hp.trans hle) h (ih h' le_rfl)

/-- Parts behind each other. -/
theorem LaidAll.append (h : LaidAll tokens a parts p m) (h' : LaidAll tokens a parts' m q) :
    LaidAll tokens a (parts ++ parts') p q := by
  induction parts generalizing p with
  | nil => exact h'.widen h.le le_rfl
  | cons part parts ih =>
    cases h with
    | cons hle h hrest => exact .cons hle h (ih hrest)

/-- One part alone. -/
theorem Laid.all (h : Laid tokens a part p q) : LaidAll tokens a [part] p q :=
  .cons le_rfl h (.nil le_rfl)

theorem LaidList.append (h : LaidList tokens a l p m) (h' : LaidList tokens a l' m q) :
    LaidList tokens a (l ++ l') p q := by
  induction l generalizing p with
  | nil =>
    cases h with
    | nil hle =>
      cases h' with
      | nil hle' => exact .nil (hle.trans hle')
      | cons hle' hline h h' => exact .cons (hle.trans hle') hline h h'
  | cons s l ih =>
    cases h with
    | cons hle hline h hrest => exact .cons hle hline h (ih hrest)

end LuaSugar
