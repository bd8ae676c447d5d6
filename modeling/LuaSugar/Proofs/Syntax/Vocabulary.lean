import Mathlib
import LuaSugar.Proofs.Syntax.Rank
/-!
# Well-formed syntax

Which chunks a parser can make and passes keep. What a name, a number and
the target of an assignment may be is left to a **vocabulary**, so that one
development serves parsed tokens of any origin and tokens that were read
from a text. The rest is about shapes: lists that are never empty, and a
call statement whose node is a call.

Well-formedness of a statement looks at nodes for two questions only,
whether a node is a call and whether it may be assigned to. An arena that
`Keeps` the answers of another keeps every statement well-formed.
-/

namespace LuaSugar

namespace Expr

/-- Names, members and subscripts. -/
def isAssignable : Expr → Bool
  | atom (.name _) | arith (.member _ _) | arith (.subscript _ _) => true
  | _ => false

def isCall : Expr → Bool
  | arith (.call _ _ _) => true
  | _ => false

end Expr

/-- Which words and numbers a chunk may be made of, and which nodes may be
assigned to. -/
structure Vocabulary where
  name : String → Prop
  number : Double → Prop
  target : Expr → Prop

namespace Vocabulary

variable (V : Vocabulary)

/-- What a token may be. -/
def Token : TokenKind → Prop
  | .name text => V.name text
  | .number value => V.number value
  | _ => True

/-- Everything that a vocabulary admits, another admits. -/
structure Within (V V' : Vocabulary) : Prop where
  name : ∀ text, V.name text → V'.name text
  number : ∀ value, V.number value → V'.number value
  target : ∀ e, V.target e → V'.target e

theorem Within.refl : V.Within V := ⟨fun _ => id, fun _ => id, fun _ => id⟩

/-- Parameters are names. -/
def Params (func : FuncBody) : Prop := ∀ name ∈ func.params, V.name name

/-- A path has a segment, and one more if the last is a method. -/
def Path (path : FunctionPath) : Prop :=
  path.segments ≠ [] ∧ (path.method → 2 ≤ path.segments.length) ∧
    ∀ name ∈ path.segments, V.name name

def Binding : ImportBinding → Prop
  | .default name => V.name name
  | .named names => names ≠ [] ∧ ∀ name ∈ names, V.name name

/-- A statement is well-formed, nested lists aside. -/
def Stmt (a : Arena) : StmtKind → Prop
  | .localFunction name func => V.name name ∧ V.Params func
  | .function path func => V.Path path ∧ V.Params func
  | .localDecl names _ => names ≠ [] ∧ ∀ name ∈ names, V.name name
  | .compoundAssign target _ _ => V.target (a.get target)
  | .assign targets values => targets ≠ [] ∧ values ≠ [] ∧ ∀ t ∈ targets, V.target (a.get t)
  | .call c => (a.get c).isCall
  | .forNumeric var _ _ _ _ => V.name var
  | .forGeneric names iterators _ =>
    names ≠ [] ∧ iterators ≠ [] ∧ ∀ name ∈ names, V.name name
  | .importFrom binding _ => V.Binding binding
  | _ => True

/-- The statements of a list are well-formed, at every depth. -/
def Block (a : Arena) (block : List LuaSugar.Stmt) : Prop := Block.Everywhere (V.Stmt a) block

/-- A node is well-formed. -/
def Node (a : Arena) : Expr → Prop
  | .atom (.number value) => V.number value
  | .atom (.name text) => V.name text
  | .atom (.element e) => V.name e.name ∧ ∀ entry ∈ e.properties, V.name entry.1
  | .atom (.func func) => V.Params func ∧ V.Block a func.body
  | .arith (.member _ name) => V.name name
  | .arith (.call _ (some method) _) => V.name method
  | _ => True

end Vocabulary

namespace Arena

/-- What was a call or could be assigned to still is and can. -/
structure Keeps (V : Vocabulary) (a b : Arena) : Prop where
  call : ∀ i, (a.get i).isCall → (b.get i).isCall
  target : ∀ i, V.target (a.get i) → V.target (b.get i)

/-- An arena keeps what it has. -/
theorem Keeps.refl (V : Vocabulary) (a : Arena) : Keeps V a a := ⟨fun _ => id, fun _ => id⟩

theorem Keeps.trans {V : Vocabulary} {a b c : Arena} (h : Keeps V a b) (h' : Keeps V b c) :
    Keeps V a c :=
  ⟨fun i hi => h'.call i (h.call i hi), fun i hi => h'.target i (h.target i hi)⟩

end Arena

namespace Vocabulary

variable {V V' : Vocabulary} {a b : Arena}

theorem Params.mono (hV : V.Within V') {func : FuncBody} (h : V.Params func) : V'.Params func :=
  fun name hn => hV.name name (h name hn)

/-- A wider vocabulary holds of every statement that a narrower one holds of,
in an arena that keeps what this one has. -/
theorem Stmt.mono (hV : V.Within V') (hab : a.Keeps V b) : ∀ {kind : StmtKind}, V.Stmt a kind →
    V'.Stmt b kind
  | .localFunction _ _, h => ⟨hV.name _ h.1, Params.mono hV h.2⟩
  | .function _ _, h =>
    ⟨⟨h.1.1, h.1.2.1, fun name hn => hV.name name (h.1.2.2 name hn)⟩, Params.mono hV h.2⟩
  | .localDecl _ _, h => ⟨h.1, fun name hn => hV.name name (h.2 name hn)⟩
  | .compoundAssign _ _ _, h => hV.target _ (hab.target _ h)
  | .assign _ _, h => ⟨h.1, h.2.1, fun t ht => hV.target _ (hab.target _ (h.2.2 t ht))⟩
  | .call _, h => hab.call _ h
  | .forNumeric _ _ _ _ _, h => hV.name _ h
  | .forGeneric _ _ _, h => ⟨h.1, h.2.1, fun name hn => hV.name name (h.2.2 name hn)⟩
  | .importFrom (.default _) _, h => hV.name _ h
  | .importFrom (.named _) _, h => ⟨h.1, fun name hn => hV.name name (h.2 name hn)⟩
  | .ret _, _ | .break_, _ | .doBlock _, _ | .whileLoop _ _, _ | .repeatLoop _ _, _
  | .ifChain _, _ | .intrinsic _ _, _ | .ignore, _ => trivial

theorem Block.mono (hV : V.Within V') (hab : a.Keeps V b) {block : List LuaSugar.Stmt}
    (h : V.Block a block) : V'.Block b block :=
  Block.Everywhere.mono h fun _ => Stmt.mono hV hab

/-- The same for nodes, which refer to the arena by their targets only. -/
theorem Node.mono (hV : V.Within V') (hab : a.Keeps V b) : ∀ {e : Expr}, V.Node a e → V'.Node b e
  | .atom (.number _), h => hV.number _ h
  | .atom (.name _), h => hV.name _ h
  | .atom (.element _), h => ⟨hV.name _ h.1, fun entry he => hV.name _ (h.2 entry he)⟩
  | .atom (.func _), h => ⟨Params.mono hV h.1, Block.mono hV hab h.2⟩
  | .arith (.member _ _), h => hV.name _ h
  | .arith (.call _ (some _) _), h => hV.name _ h
  | .atom (.string _), _ | .atom (.boolean _), _ | .atom .nil, _ | .atom .vararg, _
  | .atom (.table _), _ | .arith (.binary _ _ _), _ | .arith (.unary _ _), _
  | .arith (.subscript _ _), _ | .arith (.call _ none _), _ | .arith (.assign _ _ _), _ => trivial

/-- Well-formedness of a statement does not look into its lists. -/
@[simp] theorem stmt_hollow (kind : StmtKind) : V.Stmt a kind.hollow ↔ V.Stmt a kind := by
  cases kind <;> exact Iff.rfl

/-- A list of well-formed statements. -/
theorem block_iff {block : List LuaSugar.Stmt} :
    V.Block a block ↔ ∀ s ∈ block, V.Stmt a s.kind ∧ ∀ b ∈ s.kind.blocks, V.Block a b :=
  Block.everywhere_iff

@[simp] theorem block_nil : V.Block a [] := by
  intro s hs
  cases hs

/-- A list is in a vocabulary if both its parts are. -/
theorem block_append {l l' : List LuaSugar.Stmt} :
    V.Block a (l ++ l') ↔ V.Block a l ∧ V.Block a l' := by
  simp only [Block, LuaSugar.Block.Everywhere, Block.deep_append, List.mem_append]
  exact ⟨fun h => ⟨fun s hs => h s (.inl hs), fun s hs => h s (.inr hs)⟩,
    fun h s hs => hs.elim (h.1 s) (h.2 s)⟩

end Vocabulary

end LuaSugar
