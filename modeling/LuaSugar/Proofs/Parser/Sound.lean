import Mathlib
import LuaSugar.Proofs.Syntax.Growth
import LuaSugar.Proofs.Parser.Outcome
/-!
# What parsing keeps

Parsers allocate children first and never hand out an id twice. So while
they run, every id of the arena occurs exactly once: a node refers to it,
or it is **pending**, held by the parser that will put it into a node or a
statement. Each parser's specification is a frame around that: whatever
else is pending when it starts is pending when it ends, and what it
answers is pending besides.

The same induction shows that a chunk is well-formed in the vocabulary of
its tokens.
-/

namespace LuaSugar

/-! ## Ownership -/

namespace Arena

variable {a : Arena} {pending : Multiset ExprId}

/-- All ids that nodes refer to, node by node. -/
def references (a : Arena) : List ExprId := a.nodes.toList.flatMap Expr.refs

/-- Every id is referred to or pending, exactly once in all, and
references lead to earlier nodes. -/
structure Owned (a : Arena) (pending : Multiset ExprId) : Prop where
  once : (↑a.references : Multiset ExprId) + pending = ↑((List.range a.size).map ExprId.mk)
  lower : ∀ i j, a.Refers i j → j.index < i.index

/-- What is pending is inside the arena. -/
theorem Owned.inside (h : a.Owned pending) {i : ExprId} (hi : i ∈ pending) : i.index < a.size := by
  have hmem : i ∈ (↑a.references : Multiset ExprId) + pending := Multiset.mem_add.2 (.inr hi)
  rw [h.once] at hmem
  obtain ⟨k, hk, rfl⟩ := List.mem_map.1 (Multiset.mem_coe.1 hmem)
  exact List.mem_range.1 hk

/-- **A new node** takes over what it refers to and is pending itself. -/
theorem Owned.alloc {e : Expr} (h : a.Owned (↑e.refs + pending)) :
    (a.alloc e).2.Owned ({(a.alloc e).1} + pending) := by
  constructor
  · have hrefs : (a.alloc e).2.references = a.references ++ e.refs := by
      simp [references, Arena.alloc]
    have hrange : (List.range (a.alloc e).2.size).map ExprId.mk =
        (List.range a.size).map ExprId.mk ++ [⟨a.size⟩] := by
      rw [size_alloc, List.range_succ, List.map_append]
      rfl
    rw [hrefs, hrange, ← Multiset.coe_add, ← Multiset.coe_add, ← h.once, alloc_fst,
      Multiset.coe_singleton]
    abel
  · intro i j hij
    rw [Refers] at hij
    rcases get_alloc_cases a e i with hi | ⟨rfl, hi⟩
    · rw [hi] at hij
      exact h.lower i j hij
    · rw [hi] at hij
      exact h.inside (Multiset.mem_add.2 (.inl hij))

/-- Without nodes nothing is owned. -/
theorem Owned.empty : Arena.empty.Owned 0 := by
  refine ⟨rfl, fun i j hij => ?_⟩
  have hi := inside_of_refers hij
  simp [Arena.empty, Arena.size] at hi

/-- The order of ids ranks what a parser has made. -/
theorem Owned.ranked (h : a.Owned pending) : a.Ranked fun i => i.index := by
  refine ⟨fun i j hij => ?_, fun i j hij => by exact_mod_cast h.lower i j hij⟩
  exact (h.lower i j hij).trans (inside_of_refers hij)

end Arena

/-! ## Parsers under way -/

/-- The tokens to come are in the vocabulary, each id is in one place, and
nodes are well-formed. -/
structure ParseState.Sound (V : Vocabulary) (s : ParseState) (pending : Multiset ExprId) :
    Prop where
  tokens : ∀ t ∈ s.rest, V.Token t.kind
  owned : s.arena.Owned pending
  nodes : ∀ i, V.Node s.arena (s.arena.get i)

/-- A state whose arena has grown from another, with its pending ids. -/
structure ParseState.Grown (V : Vocabulary) (a : Arena) (s : ParseState)
    (pending : Multiset ExprId) : Prop where
  sound : s.Sound V pending
  extend : a.Extends s.arena

namespace ParseState

variable {V : Vocabulary} {a : Arena} {s s₁ : ParseState} {P P' : Multiset ExprId}

/-- A sound state has grown from itself. -/
theorem Sound.grown (h : s.Sound V P) : s.Grown V s.arena P := ⟨h, .refl _⟩

/-- A token less leaves a state sound. -/
theorem Sound.next (h : s.Sound V P) : s.next.Sound V P :=
  ⟨fun t ht => h.tokens t (List.mem_of_mem_tail ht), h.owned, h.nodes⟩

/-- The token ahead is one of the vocabulary. -/
theorem Sound.token (h : s.Sound V P) {kind : TokenKind} (hk : s.kind? = some kind) :
    V.Token kind := by
  obtain ⟨t, ht, rfl⟩ := Option.map_eq_some_iff.1 hk
  exact h.tokens t (List.mem_of_mem_head? ht)

/-- Growth adds up. -/
theorem Grown.trans (h : s.Grown V a P) (h' : s₁.Grown V s.arena P') : s₁.Grown V a P' :=
  ⟨h'.sound, h.extend.trans h'.extend⟩

theorem Grown.cast (h : s.Grown V a P) (hP : P = P') : s.Grown V a P' := hP ▸ h

theorem Grown.next (h : s.Grown V a P) : s.next.Grown V a P := ⟨h.sound.next, h.extend⟩

/-- The target of an assignment is what the parser checks for. -/
theorem Grown.alloc (hV : ∀ e, V.target e → e.isAssignable) {e : Expr}
    (h : s.Grown V a (↑e.refs + P)) (he : V.Node s.arena e) :
    ({ s with arena := (s.arena.alloc e).2 } : ParseState).Grown V a ({(s.arena.alloc e).1} + P) := by
  have hext := Arena.extends_alloc s.arena e
  have hkeeps := hext.keeps hV
  refine ⟨⟨h.sound.tokens, h.sound.owned.alloc, fun i => ?_⟩, h.extend.trans hext⟩
  rcases Arena.get_alloc_cases s.arena e i with hi | ⟨_, hi⟩
  · rw [show ({ s with arena := (s.arena.alloc e).2 } : ParseState).arena.get i = _ from hi]
    exact Vocabulary.Node.mono (.refl V) hkeeps (h.sound.nodes i)
  · rw [show ({ s with arena := (s.arena.alloc e).2 } : ParseState).arena.get i = _ from hi]
    exact Vocabulary.Node.mono (.refl V) hkeeps he

end ParseState

/-- The recursive parsers keep to it. -/
structure Grammar.Sound (V : Vocabulary) (g : Grammar) : Prop where
  expression : ∀ n {s P}, s.Sound V P →
    Parser.Leaves True (g.expression n) (fun i s' => s'.Grown V s.arena ({i} + P)) s
  assignment : ∀ {s P}, s.Sound V P →
    Parser.Leaves True g.assignment (fun i s' => s'.Grown V s.arena ({i} + P)) s
  element : ∀ {s P}, s.Sound V P →
    Parser.Leaves True g.element (fun e s' =>
      s'.Grown V s.arena (↑(Expr.atom (.element e)).refs + P) ∧ V.Node s'.arena (.atom (.element e))) s
  block : ∀ stop {s P}, s.Sound V P →
    Parser.Leaves True (g.block stop) (fun block s' =>
      s'.Grown V s.arena (↑(Block.ids block) + P) ∧ V.Block s'.arena block) s
  ifArm : ∀ line {s P}, s.Sound V P →
    Parser.Leaves True (g.ifArm line) (fun arm s' =>
      s'.Grown V s.arena (↑(arm.conditions ++ arm.bodies.flatMap Block.ids) + P) ∧
        ∀ b ∈ arm.bodies, V.Block s'.arena b) s

namespace Grammar.Sound

open LuaSugar.Parser LuaSugar.ParseState

variable {V : Vocabulary} {g : Grammar} {s s₀ : ParseState} {P : Multiset ExprId}

/-! ## Expressions -/

/-- A name that is read is in the vocabulary. -/
theorem name (h : s.Sound V P) {Q : String → ParseState → Prop}
    (hQ : ∀ text, V.name text → Q text s.next) : Leaves True expectName Q s := by
  rw [leaves_expectName]
  split
  · rename_i text hk
    exact hQ text (h.token hk)
  · trivial

/-- **Ids between commas** are pending together, each of them new. -/
theorem commaSeparatedIds {item : Parser ExprId} (hitem : ∀ {s P}, s.Sound V P →
      Leaves True item (fun i s' => s'.Grown V s.arena ({i} + P)) s) (h : s.Sound V P) :
    Leaves True (commaSeparated item)
      (fun (ids : List ExprId) s' => ids ≠ [] ∧ s'.Grown V s.arena (↑ids + P)) s := by
  refine Leaves.commaSeparated (I := fun (ids : List ExprId) s' => s'.Grown V s.arena (↑ids + P))
    (fun ids s' hs' => ?_) (fun _ _ hs' => hs'.next) (h.grown.cast (zero_add P).symm)
  refine (hitem hs'.sound).mono fun i s'' hi => (hs'.trans hi).cast ?_
  rw [← Multiset.coe_add, Multiset.coe_singleton]
  abel

theorem mem_concat {names : List String} {text : String} (h : ∀ n ∈ names, V.name n)
    (ht : V.name text) : ∀ n ∈ names ++ [text], V.name n := by
  intro n hn
  rcases List.mem_append.1 hn with hn | hn
  · exact h n hn
  · rwa [List.mem_singleton.1 hn]

/-- Names of the vocabulary, and no id. -/
theorem commaSeparatedNames (h : s.Sound V P) : Leaves True (commaSeparated expectName)
    (fun names s' => (names ≠ [] ∧ ∀ n ∈ names, V.name n) ∧ s'.Grown V s.arena P) s := by
  refine Leaves.mono (Leaves.commaSeparated
    (I := fun names s' => (∀ n ∈ names, V.name n) ∧ s'.Grown V s.arena P)
    (fun names s' hs' => ?_) (fun _ _ hs' => ⟨hs'.1, hs'.2.next⟩) ⟨by simp, h.grown⟩)
    fun names s' hs' => ⟨⟨hs'.1, hs'.2.1⟩, hs'.2.2⟩
  exact name hs'.2.sound fun text ht => ⟨mem_concat hs'.1 ht, hs'.2.next⟩

/-- A parameter list is a list of names. -/
theorem parameters (opening closing : Operator) (h : s.Sound V P) :
    Leaves True (Parser.parameters opening closing)
      (fun params s' => (∀ n ∈ params.1, V.name n) ∧ s'.Grown V s.arena P) s := by
  unfold Parser.parameters
  simp only [leaves_bind, leaves_expectOp, leaves_eatOp, if_true_right]
  intro _
  split
  · simp only [if_true, leaves_pure]
    exact ⟨by simp, h.grown.next.next⟩
  refine Leaves.loop (I := fun names s' => (∀ n ∈ names, V.name n) ∧ s'.Grown V s.arena P) ?_
    ⟨by simp, h.grown.next⟩
  rintro names s' ⟨hnames, hs'⟩
  simp only [leaves_bind, leaves_eatOp]
  split
  · simp only [if_true, leaves_bind, leaves_expectOp, leaves_pure, if_true_right]
    exact fun _ => ⟨hnames, hs'.next.next⟩
  simp only [Bool.false_eq_true, if_false, leaves_bind]
  refine name hs'.sound fun text ht => ?_
  simp only [leaves_bind, leaves_eatOp]
  split
  · simp only [if_true, leaves_pure]
    exact ⟨mem_concat hnames ht, hs'.next.next⟩
  simp only [Bool.false_eq_true, if_false, leaves_bind, leaves_expectOp, leaves_pure,
    if_true_right]
  exact fun _ => ⟨mem_concat hnames ht, hs'.next.next⟩

/-- A path of names of the vocabulary. -/
theorem functionPath (h : s.Sound V P) : Leaves True Grammar.functionPath
    (fun path s' => V.Path path ∧ s'.Grown V s.arena P) s := by
  unfold Grammar.functionPath
  rw [leaves_bind]
  refine name h fun first hfirst => ?_
  refine Leaves.loop (I := fun segments s' => segments ≠ [] ∧ (∀ n ∈ segments, V.name n) ∧
    s'.Grown V s.arena P) ?_ ⟨by simp, by simpa using hfirst, h.grown.next⟩
  rintro segments s₁ ⟨hne, hnames, h₁⟩
  simp only [leaves_bind, leaves_eatOp]
  split
  · simp only [if_true, leaves_bind]
    exact name h₁.sound.next fun text ht => ⟨by simp, mem_concat hnames ht, h₁.next.next⟩
  simp only [Bool.false_eq_true, if_false, leaves_bind, leaves_eatOp]
  split
  · simp only [if_true, leaves_bind]
    refine name h₁.sound.next fun text ht => ⟨⟨by simp, fun _ => ?_, mem_concat hnames ht⟩,
      h₁.next.next⟩
    have hlength := List.length_pos_iff.2 hne
    rw [List.length_append, List.length_singleton]
    omega
  · exact ⟨⟨hne, by simp, hnames⟩, h₁⟩

/-- A statement that was read: its ids are pending, and it is well-formed
with its lists. -/
def Reads (V : Vocabulary) (a : Arena) (P : Multiset ExprId) (kind : StmtKind) (s : ParseState) :
    Prop :=
  s.Grown V a (↑kind.ids + P) ∧ V.Stmt s.arena kind ∧ ∀ b ∈ kind.blocks, V.Block s.arena b

/-- A statement with one list. -/
theorem reads_body {a : Arena} {kind : StmtKind} {body : Block} (hblocks : kind.blocks = [body])
    (h : s.Grown V a (↑kind.roots + (↑(Block.ids body) + P))) (hbody : V.Block s.arena body)
    (hkind : V.Stmt s.arena kind) : Reads V a P kind s := by
  refine ⟨h.cast ?_, hkind, fun b hb => ?_⟩
  · rw [StmtKind.ids_eq, hblocks, List.flatMap_singleton, ← Multiset.coe_add, add_assoc]
  · rw [hblocks] at hb
    rwa [List.mem_singleton.1 hb]

/-- A statement without lists. -/
theorem reads_simple {a : Arena} {kind : StmtKind} (h : s.Grown V a (↑kind.roots + P))
    (hblocks : kind.blocks = []) (hkind : V.Stmt s.arena kind) : Reads V a P kind s := by
  refine ⟨h.cast ?_, hkind, by simp [hblocks]⟩
  rw [StmtKind.ids_eq, hblocks, List.flatMap_nil, List.append_nil]

variable (hV : ∀ e, V.target e → e.isAssignable)
include hV in
/-- The key of a named entry is allocated behind its value. -/
theorem pushNamed {t : Table} {key : String} {value : ExprId}
    (h : s₀.Grown V s.arena ({value} + (↑t.ids + P))) : Leaves True (build (Build.pushNamed t key value))
      (fun t' s' => s'.Grown V s.arena (↑t'.ids + P)) s₀ := by
  rw [leaves_build]
  have hkey := (h.cast (zero_add _).symm).alloc hV (e := .ofText key) trivial
  refine hkey.cast ?_
  rw [show (↑((Build.pushNamed t key value).run s₀.arena).1.ids : Multiset ExprId) =
    ↑(t.ids ++ [(s₀.arena.alloc (.ofText key)).1, value]) from
      congrArg _ (Table.ids_pushKeyed t _ value), ← Multiset.coe_add]
  show _ = ↑t.ids + ({_} + {value}) + P
  abel

include hV in
/-- A node without ids. -/
theorem leaf {e : Expr} (he : e.refs = []) (hn : ∀ a, V.Node a e) (h : s₀.Grown V s.arena P) :
    Leaves True (alloc e) (fun i s' => s'.Grown V s.arena ({i} + P)) s₀ := by
  rw [leaves_alloc]
  refine (h.cast ?_).alloc hV (hn _)
  rw [he, Multiset.coe_nil, zero_add]

variable (hg : g.Sound V)
include hg

/-- **A function's body is pending** by the ids in it, which the literal will own. -/
theorem funcBody (h : s.Sound V P) : Leaves True g.funcBody (fun func s' =>
    s'.Grown V s.arena (↑(Block.ids func.body) + P) ∧ V.Params func ∧ V.Block s'.arena func.body) s := by
  unfold Grammar.funcBody
  rw [leaves_bind]
  refine (parameters _ _ h).mono fun params s₁ h₁ => ?_
  rw [leaves_bind]
  refine (hg.block _ h₁.2.sound).mono fun body s₂ h₂ => ?_
  exact ⟨h₁.2.trans h₂.1, h₁.1, h₂.2⟩

/-- Expressions that are pending, one at least. -/
theorem expressionList (h : s.Sound V P) : Leaves True g.expressionList
    (fun (ids : List ExprId) s' => ids ≠ [] ∧ s'.Grown V s.arena (↑ids + P)) s :=
  commaSeparatedIds (fun h => hg.expression 1 h) h

theorem parenthesizedArguments (h : s.Sound V P) : Leaves True g.parenthesizedArguments
    (fun (ids : List ExprId) s' => s'.Grown V s.arena (↑ids + P)) s := by
  unfold Grammar.parenthesizedArguments
  simp only [leaves_bind, leaves_expectOp, leaves_eatOp, if_true_right]
  intro _
  split
  · exact h.grown.next.next.cast (zero_add P).symm
  simp only [Bool.false_eq_true, if_false, leaves_bind]
  refine (expressionList hg h.next).mono fun ids s₁ h₁ => ?_
  simp only [leaves_bind, leaves_expectOp, leaves_pure, if_true_right]
  exact fun _ => h₁.2.next

include hV

/-- A function literal from its body. -/
theorem function (h : s.Sound V P) : Leaves True (do alloc (.atom (.func (← g.funcBody))))
    (fun i s' => s'.Grown V s.arena ({i} + P)) s := by
  rw [leaves_bind]
  refine (funcBody hg h).mono fun func s₁ h₁ => ?_
  rw [leaves_alloc]
  exact h₁.1.alloc hV h₁.2

theorem lambda (line : ℕ) (h : s.Sound V P) :
    Leaves True (g.lambda line) (fun i s' => s'.Grown V s.arena ({i} + P)) s := by
  unfold Grammar.lambda
  rw [leaves_bind]
  refine (parameters _ _ h).mono fun params s₁ h₁ => ?_
  rw [leaves_bind]
  refine (hg.expression 1 h₁.2.sound).mono fun value s₂ h₂ => ?_
  rw [leaves_alloc]
  refine (h₁.2.trans h₂).alloc hV ⟨h₁.1, ?_⟩
  intro s hs
  rw [List.mem_singleton.1 hs]
  trivial

/-- **An entry is pending** with those before it, since no node owns them
until the table is complete. -/
theorem tableEntry {t : Table} (h : s.Sound V (↑t.ids + P)) :
    Leaves True (g.tableEntry t) (fun t' s' => s'.Grown V s.arena (↑t'.ids + P)) s := by
  unfold Grammar.tableEntry
  rw [leaves_bind, leaves_lookAhead]
  split
  · simp only [leaves_bind, leaves_advance]
    refine (hg.expression 1 h.next.next).mono fun value s₁ h₁ => ?_
    exact pushNamed hV h₁
  · rw [leaves_bind, leaves_advance, leaves_bind]
    refine (hg.expression 1 h.next).mono fun key s₁ h₁ => ?_
    simp only [leaves_bind, leaves_expectOp, if_true_right]
    intro _ _
    refine (hg.expression 1 h₁.next.next.sound).mono fun value s₂ h₂ => ?_
    refine (h₁.trans h₂).cast ?_
    rw [Table.ids_pushKeyed, ← Multiset.coe_add]
    show _ = ↑t.ids + ({key} + {value}) + P
    abel
  · simp only [leaves_bind, leaves_advance]
    refine (funcBody hg h.next.next).mono fun func s₁ h₁ => ?_
    rw [leaves_bind, leaves_alloc]
    exact pushNamed hV (h₁.1.alloc hV h₁.2)
  · rw [leaves_bind]
    refine (hg.expression 1 h).mono fun value s₁ h₁ => h₁.cast ?_
    rw [Table.ids_pushPositional, ← Multiset.coe_add, Multiset.coe_singleton]
    abel

/-- The table owns its entries: one id is pending instead. -/
theorem table (h : s.Sound V P) :
    Leaves True g.table (fun i s' => s'.Grown V s.arena ({i} + P)) s := by
  unfold Grammar.table
  simp only [leaves_bind, leaves_expectOp, if_true_right]
  intro _
  refine Leaves.mono (Leaves.loop (I := fun (t : Table) s' => s'.Grown V s.arena (↑t.ids + P))
    (Q := fun (t : Table) s' => s'.Grown V s.arena (↑t.ids + P)) (fun t s₁ h₁ => ?_)
    (h.grown.next.cast (zero_add P).symm)) fun t s₁ h₁ => ?_
  · simp only [leaves_bind, leaves_eatOp]
    split
    · exact h₁.next
    simp only [Bool.false_eq_true, if_false, leaves_bind]
    refine (tableEntry hV hg h₁.sound).mono fun t' s₂ h₂ => ?_
    have h₂ := h₁.trans h₂
    simp only [leaves_bind, leaves_eatOp]
    split
    · exact h₂.next
    simp only [Bool.false_eq_true, if_false, leaves_bind, leaves_eatOp]
    split
    · exact h₂.next
    simp only [leaves_expectOp, if_true_right]
    exact fun _ => h₂.next
  · rw [leaves_build]
    exact h₁.alloc hV (e := .atom (.table t)) trivial

/-- What a property is set to is pending. -/
theorem propertyValue (property : String) (h : s.Sound V P) :
    Leaves True (g.propertyValue property) (fun i s' => s'.Grown V s.arena ({i} + P)) s := by
  unfold Grammar.propertyValue
  simp only [leaves_bind, leaves_eatOp]
  split
  · simp only [if_true, leaves_bind, leaves_current]
    split
    · exact leaf hV rfl (fun _ => trivial) h.grown.next.next
    · simp only [leaves_bind, leaves_advance]
      refine (hg.expression 1 h.next.next).mono fun value s₁ h₁ => ?_
      simp only [leaves_bind, leaves_expectOp, leaves_pure, if_true_right]
      exact fun _ => h₁.next
    · trivial
  · exact leaf hV rfl (fun _ => trivial) h.grown

/-- Properties are pending by their values, and have names of the vocabulary. -/
theorem properties (h : s.Sound V P) : Leaves True g.properties (fun found s' =>
    (∀ entry ∈ found, V.name entry.1) ∧ s'.Grown V s.arena (↑(found.map (·.2)) + P)) s := by
  unfold Grammar.properties
  refine Leaves.loop (I := fun (found : List (String × ExprId)) s' =>
    (∀ entry ∈ found, V.name entry.1) ∧ s'.Grown V s.arena (↑(found.map (·.2)) + P))
    (fun found s₁ h₁ => ?_) ⟨by simp, h.grown.cast (zero_add P).symm⟩
  rw [leaves_bind, leaves_current]
  split
  · rename_i property hk
    simp only [leaves_bind, leaves_advance]
    refine (propertyValue hV hg property h₁.2.sound.next).mono fun value s₂ h₂ => ?_
    refine ⟨fun entry he => ?_, (h₁.2.trans h₂).cast ?_⟩
    · rcases List.mem_append.1 he with he | he
      · exact h₁.1 entry he
      · rw [List.mem_singleton.1 he]
        exact h₁.2.sound.token hk
    · rw [List.map_append, ← Multiset.coe_add]
      show _ = _ + {value} + P
      abel
  · exact h₁

/-- Children are pending. -/
theorem elementChildren (name : String) (h : s.Sound V P) : Leaves True (g.elementChildren name)
    (fun (found : List ExprId) s' => s'.Grown V s.arena (↑found + P)) s := by
  unfold Grammar.elementChildren
  refine Leaves.loop (I := fun (found : List ExprId) s' => s'.Grown V s.arena (↑found + P))
    (fun found s₁ h₁ => ?_) (h.grown.cast (zero_add P).symm)
  have hpush {i : ExprId} {s₂ : ParseState} (h₂ : s₂.Grown V s₁.arena ({i} + (↑found + P))) :
      s₂.Grown V s.arena (↑(found ++ [i]) + P) := by
    refine (h₁.trans h₂).cast ?_
    rw [← Multiset.coe_add, Multiset.coe_singleton]
    abel
  rw [leaves_bind, leaves_lookAhead]
  split
  · simp only [leaves_bind, leaves_advance]
    refine (hg.expression 1 h₁.sound.next).mono fun child s₂ h₂ => ?_
    simp only [leaves_bind, leaves_expectOp, leaves_pure, if_true_right]
    exact fun _ => hpush h₂.next
  · exact h₁.next.next
  · rw [leaves_bind]
    refine (hg.element h₁.sound).mono fun child s₂ h₂ => ?_
    rw [leaves_bind, leaves_alloc]
    exact hpush (h₂.1.alloc hV h₂.2)
  · trivial

/-- An element is not allocated yet, so its ids are pending. -/
theorem elementLiteral (h : s.Sound V P) : Leaves True g.elementLiteral (fun e s' =>
    s'.Grown V s.arena (↑(Expr.atom (.element e)).refs + P) ∧
      V.Node s'.arena (.atom (.element e))) s := by
  unfold Grammar.elementLiteral
  simp only [leaves_bind, leaves_expectOp, if_true_right]
  intro _
  refine name h.next fun text ht => ?_
  rw [leaves_bind]
  refine (properties hV hg h.next.next).mono fun found s₁ h₁ => ?_
  simp only [leaves_bind, leaves_eatOp]
  split
  · simp only [if_true, leaves_bind, leaves_expectOp, leaves_pure, if_true_right]
    refine fun _ => ⟨h₁.2.next.next.cast ?_, ht, h₁.1⟩
    simp [Expr.refs, Expr.children]
  simp only [Bool.false_eq_true, if_false, leaves_bind, leaves_expectOp, if_true_right]
  intro _
  refine (elementChildren hV hg text h₁.2.sound.next).mono fun children s₂ h₂ => ?_
  rw [leaves_bind]
  refine name h₂.sound fun closing _ => ?_
  simp only [leaves_bind, leaves_ite, leaves_fail, leaves_pure, leaves_expectOp, if_true_right]
  split
  · trivial
  refine fun _ => ⟨(h₁.2.trans h₂).next.next.cast ?_, ht, h₁.1⟩
  rw [show (Expr.atom (.element ⟨text, found, some children⟩)).refs =
    found.map (·.2) ++ children from List.append_nil _, ← Multiset.coe_add]
  abel

/-- **What an expression begins with** is one pending id. -/
theorem primary (h : s.Sound V P) :
    Leaves True g.primary (fun i s' => s'.Grown V s.arena ({i} + P)) s := by
  have hatom {atom : Atom} (hr : (Expr.atom atom).refs = []) (hn : ∀ a, V.Node a (.atom atom)) :
      Leaves True (readAtom atom) (fun i s' => s'.Grown V s.arena ({i} + P)) s := by
    unfold readAtom
    rw [leaves_bind, leaves_advance]
    exact leaf hV hr hn h.grown.next
  unfold Grammar.primary
  rw [leaves_bind, leaves_line, leaves_bind, leaves_current]
  split
  · simp only [leaves_bind, leaves_advance]
    refine (hg.assignment h.next).mono fun i s₁ h₁ => ?_
    simp only [leaves_bind, leaves_expectOp, leaves_pure, if_true_right]
    exact fun _ => h₁.next
  · exact table hV hg h
  · rw [leaves_bind]
    refine (elementLiteral hV hg h).mono fun e s₁ h₁ => ?_
    rw [leaves_alloc]
    exact h₁.1.alloc hV h₁.2
  · exact lambda hV hg _ h
  · exact hatom rfl fun _ => trivial
  · rename_i value hk
    exact hatom rfl fun _ => h.token hk
  · exact hatom rfl fun _ => trivial
  · rename_i text hk
    exact hatom rfl fun _ => h.token hk
  · exact hatom rfl fun _ => trivial
  · exact hatom rfl fun _ => trivial
  · exact hatom rfl fun _ => trivial
  · rw [leaves_bind, leaves_advance]
    exact function hV hg h.next
  · trivial
  · trivial
  · trivial

/-- Arguments are pending. -/
theorem callArguments (h : s.Sound V P) : Leaves True g.callArguments
    (fun (ids : List ExprId) s' => s'.Grown V s.arena (↑ids + P)) s := by
  unfold Grammar.callArguments
  rw [leaves_bind, leaves_current]
  split
  · exact leaf hV rfl (fun _ => trivial) h.grown.next
  · rw [leaves_bind]
    exact table hV hg h
  · exact parenthesizedArguments hg h

/-- A suffix takes the expression before it. -/
theorem suffix (calls : Bool) {expr : ExprId} (h : s.Sound V ({expr} + P)) :
    Leaves True (g.suffix calls expr) (fun r s' => match r with
      | .inl i | .inr i => s'.Grown V s.arena ({i} + P)) s := by
  unfold Grammar.suffix
  rw [leaves_bind, leaves_current]
  split
  · simp only [leaves_bind, leaves_advance]
    refine name h.next fun text ht => ?_
    rw [leaves_map, leaves_build]
    exact h.grown.next.next.alloc hV (e := .arith (.member expr text)) ht
  · simp only [leaves_bind, leaves_advance]
    refine (hg.expression 1 h.next).mono fun key s₁ h₁ => ?_
    simp only [leaves_bind, leaves_expectOp, leaves_map, leaves_build, if_true_right]
    intro _
    refine (h₁.next.cast ?_).alloc hV (e := .arith (.subscript expr key)) trivial
    show _ = {expr} + {key} + P
    abel
  · simp only [leaves_bind, leaves_advance]
    refine name h.next fun text ht => ?_
    rw [leaves_bind]
    refine (callArguments hV hg h.next.next).mono fun args s₁ h₁ => ?_
    rw [leaves_map, leaves_alloc]
    refine (h₁.cast ?_).alloc hV (e := .arith (.call expr (some text) args)) ht
    rw [show (Expr.arith (.call expr (some text) args)).refs = [expr] ++ args from
      List.append_nil _, ← Multiset.coe_add, Multiset.coe_singleton]
    abel
  -- the three ways to write the arguments of a plain call
  iterate 3
    rw [leaves_bind]
    refine (callArguments hV hg h).mono fun args s₁ h₁ => ?_
    rw [leaves_map, leaves_build]
    refine (h₁.cast ?_).alloc hV (e := .call expr args) trivial
    rw [show (Expr.call expr args).refs = [expr] ++ args from List.append_nil _,
      ← Multiset.coe_add, Multiset.coe_singleton]
    abel
  exact h.grown

/-- Each suffix is a node that owns what it is put behind. -/
theorem suffixed (calls : Bool) (h : s.Sound V P) :
    Leaves True (g.suffixed calls) (fun i s' => s'.Grown V s.arena ({i} + P)) s := by
  unfold Grammar.suffixed
  rw [leaves_bind]
  refine (primary hV hg h).mono fun head s₁ h₁ => ?_
  refine Leaves.loop (I := fun i s' => s'.Grown V s.arena ({i} + P)) (fun i s₂ h₂ => ?_) h₁
  refine (suffix hV hg calls h₂.sound).mono fun r s₃ h₃ => ?_
  cases r with
  | inl i => exact h₂.trans h₃
  | inr i => exact h₂.trans h₃

/-- A prefix operator owns its operand. -/
theorem unary (h : s.Sound V P) :
    Leaves True g.unary (fun i s' => s'.Grown V s.arena ({i} + P)) s := by
  unfold Grammar.unary
  rw [leaves_bind, leaves_current]
  split
  · split
    · rename_i op _ _ unaryOp _
      simp only [leaves_bind, leaves_advance]
      refine (hg.expression _ h.next).mono fun operand s₁ h₁ => ?_
      rw [leaves_alloc]
      exact h₁.alloc hV (e := .arith (.unary unaryOp operand)) trivial
    · exact suffixed hV hg true h
  · exact suffixed hV hg true h

/-- **Operations** are sound if the recursive parsers are. -/
theorem operation (minimum : ℕ) (h : s.Sound V P) :
    Leaves True (g.operation minimum) (fun i s' => s'.Grown V s.arena ({i} + P)) s := by
  unfold Grammar.operation
  rw [leaves_bind]
  refine (unary hV hg h).mono fun left s₁ h₁ => ?_
  refine Leaves.loop (I := fun i s' => s'.Grown V s.arena ({i} + P)) (fun i s₂ h₂ => ?_) h₁
  unfold Grammar.binaryStep
  rw [leaves_bind, leaves_current]
  split
  · rename_i binary op precedence _
    simp only [leaves_bind, leaves_advance]
    refine (hg.expression _ h₂.sound.next).mono fun right s₃ h₃ => ?_
    rw [leaves_map, leaves_build]
    refine ((h₂.trans h₃).cast ?_).alloc hV (e := .arith (.binary binary i right)) trivial
    show _ = {i} + {right} + P
    abel
  · exact h₂

theorem assignmentOrExpression (h : s.Sound V P) :
    Leaves True g.assignmentOrExpression (fun i s' => s'.Grown V s.arena ({i} + P)) s := by
  unfold Grammar.assignmentOrExpression
  rw [leaves_bind]
  refine (operation hV hg 1 h).mono fun target s₁ h₁ => ?_
  rw [leaves_bind, leaves_current]
  split
  · rename_i op _
    simp only [leaves_bind, leaves_advance]
    refine (hg.assignment h₁.sound.next).mono fun value s₂ h₂ => ?_
    rw [leaves_alloc]
    refine ((h₁.trans h₂).cast ?_).alloc hV (e := .arith (.assign op target value)) trivial
    show _ = {target} + {value} + P
    abel
  · exact h₁

/-! ## Statements -/

/-- An arm is pending by its conditions and by what is in its lists. -/
theorem conditionalArm (line : ℕ) (h : s.Sound V P) : Leaves True (g.conditionalArm line)
    (fun arm s' => s'.Grown V s.arena (↑(arm.conditions ++ arm.bodies.flatMap Block.ids) + P) ∧
      ∀ b ∈ arm.bodies, V.Block s'.arena b) s := by
  unfold Grammar.conditionalArm
  rw [leaves_bind]
  refine (operation hV hg 1 h).mono fun condition s₁ h₁ => ?_
  simp only [leaves_bind, leaves_expectKeyword, if_true_right]
  refine fun _ => (hg.block _ h₁.sound.next).mono fun body s₂ h₂ => ?_
  have h₁₂ := h₁.trans h₂.1
  -- whatever applies otherwise follows the condition and the body
  have hotherwise (otherwise : ElseArm) {s₃ : ParseState}
      (h₃ : s₃.Grown V s₂.arena
        (↑(otherwise.conditions ++ otherwise.bodies.flatMap Block.ids) +
          (↑(Block.ids body) + ({condition} + P))))
      (hbodies : ∀ b ∈ otherwise.bodies, V.Block s₃.arena b) :
      s₃.Grown V s.arena (↑((IfArm.mk condition body line otherwise).conditions ++
        (IfArm.mk condition body line otherwise).bodies.flatMap Block.ids) + P) ∧
      ∀ b ∈ (IfArm.mk condition body line otherwise).bodies, V.Block s₃.arena b := by
    refine ⟨(h₁₂.trans h₃).cast ?_, ?_⟩
    · rw [IfArm.conditions, IfArm.bodies, List.flatMap_cons]
      simp only [← Multiset.coe_add, ← Multiset.cons_coe, ← Multiset.singleton_add]
      abel
    · rw [IfArm.bodies]
      exact List.forall_mem_cons.2 ⟨Vocabulary.Block.mono (.refl V) (h₃.extend.keeps hV) h₂.2,
        hbodies⟩
  simp only [leaves_bind, leaves_line, leaves_eatKeyword]
  split
  · simp only [if_true, leaves_bind]
    refine (hg.ifArm _ h₂.1.sound.next).mono fun arm s₃ h₃ => ?_
    exact hotherwise (.elseIf arm) h₃.1 h₃.2
  simp only [Bool.false_eq_true, if_false, leaves_bind, leaves_eatKeyword]
  split
  · simp only [if_true, leaves_bind]
    refine (hg.block _ h₂.1.sound.next).mono fun otherwise s₃ h₃ => ?_
    refine hotherwise (.elseBlock otherwise _) ?_ fun b hb => ?_
    · simpa [ElseArm.conditions, ElseArm.bodies] using h₃.1
    · rw [List.mem_singleton.1 hb]
      exact h₃.2
  · simp only [leaves_expectKeyword, if_true_right]
    intro _
    refine hotherwise .absent ?_ (by simp [ElseArm.bodies])
    exact h₂.1.sound.grown.next.cast (zero_add _).symm

omit hV in
/-- A loop is pending by its bounds or iterators and its list. -/
theorem forLoop (h : s.Sound V P) : Leaves True g.forLoop (Reads V s.arena P) s := by
  unfold Grammar.forLoop
  rw [leaves_bind]
  refine name h fun var hvar => ?_
  simp only [leaves_bind, leaves_eatOp]
  split
  · simp only [if_true, leaves_bind]
    refine (hg.expression 1 h.next.next).mono fun start s₁ h₁ => ?_
    simp only [leaves_bind, leaves_expectOp, if_true_right]
    intro _
    refine (hg.expression 1 h₁.sound.next).mono fun limit s₂ h₂ => ?_
    have h₂ := h₁.trans h₂
    -- with a step or without one, the body comes next
    have hbody (step : Option ExprId) {s₃ : ParseState}
        (h₃ : s₃.Grown V s.arena (↑step.toList + ({limit} + ({start} + P)))) :
        Leaves True (do
          expectKeyword .do_
          let body ← g.block .endWord
          pure (StmtKind.forNumeric var start limit step body)) (Reads V s.arena P) s₃ := by
      simp only [leaves_bind, leaves_expectKeyword, if_true_right]
      refine fun _ => (hg.block _ h₃.sound.next).mono fun body s₄ h₄ => ?_
      refine reads_body rfl ((h₃.trans h₄.1).cast ?_) h₄.2 hvar
      show _ = ↑(start :: limit :: step.toList) + (↑(Block.ids body) + P)
      simp only [← Multiset.cons_coe, ← Multiset.singleton_add]
      abel
    simp only [leaves_bind, leaves_eatOp]
    split
    · simp only [if_true]
      rw [leaves_bind, leaves_map]
      refine (hg.expression 1 h₂.sound.next).mono fun step s₃ h₃ => ?_
      exact hbody (some step) (h₂.trans h₃)
    · simp only [Bool.false_eq_true, if_false]
      rw [leaves_bind, leaves_pure]
      exact hbody none (h₂.cast (zero_add _).symm)
  · simp only [Bool.false_eq_true, if_false]
    -- with more names or without, the iterators come next
    have hbody {more : List String} {s₁ : ParseState} (hmore : ∀ n ∈ more, V.name n)
        (h₁ : s₁.Grown V s.arena P) :
        Leaves True (do
          expectKeyword .in_
          let iterators ← g.expressionList
          expectKeyword .do_
          let body ← g.block .endWord
          pure (StmtKind.forGeneric (var :: more) iterators body)) (Reads V s.arena P) s₁ := by
      simp only [leaves_bind, leaves_expectKeyword, if_true_right]
      refine fun _ => (expressionList hg h₁.sound.next).mono fun iterators s₂ h₂ => ?_
      simp only [leaves_bind, leaves_expectKeyword, if_true_right]
      intro _
      refine (hg.block _ h₂.2.sound.next).mono fun body s₃ h₃ => ?_
      refine reads_body rfl (((h₁.trans h₂.2).trans h₃.1).cast ?_) h₃.2
        ⟨by simp, h₂.1, List.forall_mem_cons.2 ⟨hvar, hmore⟩⟩
      exact add_left_comm _ _ _
    rw [leaves_bind, leaves_eatOp]
    split
    · simp only [if_true]
      rw [leaves_bind]
      refine (commaSeparatedNames h.next.next).mono fun more s₁ h₁ => ?_
      exact hbody h₁.1.2 h₁.2
    · simp only [Bool.false_eq_true, if_false]
      rw [leaves_bind, leaves_pure]
      exact hbody (by simp) h.grown.next

omit hV in
/-- A declaration is pending by its values. -/
theorem localDeclaration (h : s.Sound V P) :
    Leaves True g.localDeclaration (Reads V s.arena P) s := by
  unfold Grammar.localDeclaration
  simp only [leaves_bind, leaves_eatKeyword]
  split
  · simp only [if_true, leaves_bind]
    refine name h.next fun text htext => ?_
    rw [leaves_bind]
    refine (funcBody hg h.next.next).mono fun func s₁ h₁ => ?_
    exact reads_body rfl (h₁.1.cast (zero_add _).symm) h₁.2.2 ⟨htext, h₁.2.1⟩
  simp only [Bool.false_eq_true, if_false, leaves_bind]
  refine (commaSeparatedNames h).mono fun names s₁ h₁ => ?_
  rw [leaves_bind, leaves_eatOp]
  split
  · simp only [if_true]
    rw [leaves_bind]
    refine (expressionList hg h₁.2.sound.next).mono fun values s₂ h₂ => ?_
    exact reads_simple (h₁.2.trans h₂.2) rfl h₁.1
  · exact reads_simple (h₁.2.cast (zero_add P).symm) rfl h₁.1

omit hV in
theorem importStatement (h : s.Sound V P) :
    Leaves True g.importStatement (Reads V s.arena P) s := by
  -- both forms end with `from` and the source
  have hsource (binding : ImportBinding) {s₁ : ParseState} (hbinding : V.Binding binding)
      (h₁ : s₁.Grown V s.arena P) :
      Leaves True (do
        if !(← eat (.name "from")) then unexpected .fromWord
        let source ← g.expression 1
        pure (StmtKind.importFrom binding source)) (Reads V s.arena P) s₁ := by
    simp only [leaves_bind, leaves_eat]
    split
    · simp only [Bool.not_true, Bool.false_eq_true, if_false]
      rw [leaves_bind]
      refine (hg.expression 1 h₁.sound.next).mono fun source s₂ h₂ => ?_
      exact reads_simple (h₁.trans h₂) rfl hbinding
    · simp
  unfold Grammar.importStatement
  rw [leaves_bind, leaves_eatOp]
  split
  · simp only [if_true]
    rw [leaves_bind]
    refine (commaSeparatedNames h.next).mono fun names s₁ h₁ => ?_
    rw [leaves_bind, leaves_expectOp, if_true_right]
    intro _
    exact hsource (.named names) h₁.1 h₁.2.next
  · simp only [Bool.false_eq_true, if_false]
    rw [leaves_bind, leaves_map]
    refine name h fun text htext => ?_
    exact hsource (.default text) htext h.grown.next

omit hV hg in
/-- A target that passes the check is assignable, and nothing is read. -/
theorem checkAssignable (target : ExprId) {Q : Unit → ParseState → Prop}
    (hQ : (s.arena.get target).isAssignable → Q () s) :
    Leaves True (Grammar.checkAssignable target) Q s := by
  unfold Grammar.checkAssignable
  rw [leaves_bind, leaves_get]
  split
  · rename_i hget
    exact hQ (by rw [hget]; rfl)
  · rename_i hget
    exact hQ (by rw [hget]; rfl)
  · rename_i hget
    exact hQ (by rw [hget]; rfl)
  · trivial

omit hV hg in
theorem checkAllAssignable : ∀ (targets : List ExprId),
    Leaves True (targets.forM Grammar.checkAssignable)
      (fun _ s' => s' = s ∧ ∀ t ∈ targets, (s.arena.get t).isAssignable) s
  | [] => ⟨rfl, by simp⟩
  | t :: targets => by
    rw [List.forM, leaves_bind]
    refine checkAssignable t fun ht => ?_
    refine (checkAllAssignable targets).mono fun _ s' hs' => ?_
    exact ⟨hs'.1, List.forall_mem_cons.2 ⟨ht, hs'.2⟩⟩

variable (hV' : ∀ e, e.isAssignable → V.target e)
include hV'

/-- A call that is pending, or targets and values. -/
theorem expressionStatement (h : s.Sound V P) :
    Leaves True g.expressionStatement (Reads V s.arena P) s := by
  unfold Grammar.expressionStatement
  rw [leaves_bind]
  refine (suffixed hV hg true h).mono fun first s₁ h₁ => ?_
  rw [leaves_bind, leaves_current, leaves_ite]
  split
  -- one target or a list of them: what is said of `=` is the same
  · have hassign (more : List ExprId) {s₂ : ParseState}
        (h₂ : s₂.Grown V s.arena (↑(first :: more) + P)) :
        Leaves True (do
          (first :: more).forM Grammar.checkAssignable
          expectOp .assign
          let values ← g.expressionList
          pure (StmtKind.assign (first :: more) values)) (Reads V s.arena P) s₂ := by
      rw [leaves_bind]
      refine (checkAllAssignable (first :: more)).mono fun _ s₂' ⟨hs, htargets⟩ => ?_
      subst hs
      rw [leaves_bind, leaves_expectOp, if_true_right]
      intro _
      rw [leaves_bind]
      refine (expressionList hg h₂.sound.next).mono fun values s₃ h₃ => ?_
      refine reads_simple ((h₂.trans h₃.2).cast ?_) rfl
        ⟨by simp, h₃.1, fun t ht => (h₃.2.extend.keeps hV).target t (hV' _ (htargets t ht))⟩
      rw [show (StmtKind.assign (first :: more) values).roots = (first :: more) ++ values from rfl,
        ← Multiset.coe_add (first :: more) values]
      abel
    rw [leaves_bind, leaves_eatOp]
    split
    · simp only [if_true]
      rw [leaves_bind]
      refine (commaSeparatedIds (fun h => suffixed hV hg true h) h₁.sound.next).mono
        fun more s₂ h₂ => ?_
      refine hassign _ ((h₁.next.trans h₂.2).cast ?_)
      rw [← Multiset.cons_coe, ← Multiset.singleton_add]
      abel
    · exact hassign [] h₁
  · split
    · rename_i op _
      rw [leaves_bind]
      refine checkAssignable first fun htarget => ?_
      rw [leaves_bind, leaves_advance, leaves_bind]
      refine (hg.expression 1 h₁.sound.next).mono fun value s₂ h₂ => ?_
      refine reads_simple ((h₁.trans h₂).cast ?_) rfl
        ((h₂.extend.keeps hV).target first (hV' _ htarget))
      show _ = {first} + {value} + P
      abel
    · rw [leaves_bind, leaves_get]
      split
      · rename_i hcall
        refine reads_simple h₁ rfl ?_
        show (s₁.arena.get first).isCall = true
        rw [hcall]
        rfl
      · trivial

omit hV' in
theorem intrinsicStatement (h : s.Sound V P) :
    Leaves True g.intrinsicStatement (Reads V s.arena P) s := by
  unfold Grammar.intrinsicStatement
  rw [leaves_bind]
  refine (suffixed hV hg false h).mono fun expr s₁ h₁ => ?_
  rw [leaves_bind, leaves_current]
  split
  · rw [leaves_map]
    refine (parenthesizedArguments hg h₁.sound).mono fun args s₂ h₂ => ?_
    refine reads_simple ((h₁.trans h₂).cast ?_) rfl trivial
    rw [show (StmtKind.intrinsic expr args).roots = [expr] ++ args from rfl, ← Multiset.coe_add,
      Multiset.coe_singleton]
    abel
  · exact reads_simple h₁ rfl trivial

omit hV' in
/-- **A statement of a word** is pending by its ids. -/
theorem keywordStatement (line : ℕ) (word : Keyword) (h : s.Sound V P) :
    Leaves True (g.keywordStatement line word) (Reads V s.arena P) s := by
  unfold Grammar.keywordStatement
  split
  · rw [leaves_bind, leaves_advance, leaves_map]
    refine (hg.block _ h.next).mono fun body s₁ h₁ => ?_
    exact reads_body rfl (h₁.1.cast (zero_add _).symm) h₁.2 trivial
  · exact reads_simple (h.grown.next.cast (zero_add P).symm) rfl trivial
  · rw [leaves_bind, leaves_advance, leaves_map]
    refine (hg.ifArm line h.next).mono fun arm s₁ h₁ => ?_
    exact ⟨h₁.1.cast (by rw [StmtKind.ids_eq]; rfl), trivial, h₁.2⟩
  · rw [leaves_bind, leaves_advance, leaves_bind, leaves_current, leaves_ite]
    split
    · exact reads_simple (h.grown.next.cast (zero_add P).symm) rfl trivial
    · rw [leaves_map]
      refine (expressionList hg h.next).mono fun values s₁ h₁ => ?_
      exact reads_simple h₁.2 rfl trivial
  · rw [leaves_bind, leaves_advance, leaves_bind]
    refine (hg.expression 1 h.next).mono fun condition s₁ h₁ => ?_
    rw [leaves_bind, leaves_expectKeyword, if_true_right]
    intro _
    rw [leaves_map]
    refine (hg.block _ h₁.sound.next).mono fun body s₂ h₂ => ?_
    exact reads_body rfl ((h₁.trans h₂.1).cast (add_left_comm _ _ _)) h₂.2 trivial
  · rw [leaves_bind, leaves_advance, leaves_bind]
    refine (hg.block _ h.next).mono fun body s₁ h₁ => ?_
    rw [leaves_map]
    refine (hg.expression 1 h₁.1.sound).mono fun condition s₂ h₂ => ?_
    exact reads_body rfl (h₁.1.trans h₂)
      (Vocabulary.Block.mono (.refl V) (h₂.extend.keeps hV) h₁.2) trivial
  · rw [leaves_bind, leaves_advance]
    exact forLoop hg h.next
  · rw [leaves_bind, leaves_advance, leaves_bind]
    refine (functionPath h.next).mono fun path s₁ h₁ => ?_
    rw [leaves_map]
    refine (funcBody hg h₁.2.sound).mono fun func s₂ h₂ => ?_
    exact reads_body rfl ((h₁.2.trans h₂.1).cast (zero_add _).symm) h₂.2.2 ⟨h₁.1, h₂.2.1⟩
  · rw [leaves_bind, leaves_advance]
    exact localDeclaration hg h.next
  · rw [leaves_bind, leaves_advance]
    exact importStatement hg h.next
  · trivial

/-- **Any statement.** -/
theorem statement (h : s.Sound V P) :
    Leaves True g.statement (fun stmt s' => Reads V s.arena P stmt.kind s') s := by
  unfold Grammar.statement
  rw [leaves_bind, leaves_line, leaves_bind, leaves_current]
  split
  · rename_i word _
    rw [leaves_bind]
    exact keywordStatement hV hg _ word h
  · rw [leaves_bind, leaves_advance, leaves_bind]
    exact intrinsicStatement hV hg h.next
  · rw [leaves_bind]
    exact expressionStatement hV hg hV' h

omit hV hg hV' in
/-- The end of a list is nothing to own. -/
theorem blockEnds (stop : BlockEnd) (h : s.Sound V P) :
    Leaves True (Grammar.blockEnds stop) (fun _ s' => s'.Grown V s.arena P) s := by
  unfold Grammar.blockEnds
  rw [leaves_bind, leaves_current]
  split
  all_goals first
    | exact h.grown
    | exact h.grown.next
    | trivial

/-- **A list is pending** by all ids in it, at every depth. -/
theorem statements (stop : BlockEnd) (h : s.Sound V P) : Leaves True (g.statements stop)
    (fun block s' => s'.Grown V s.arena (↑(Block.ids block) + P) ∧ V.Block s'.arena block) s := by
  unfold Grammar.statements
  refine Leaves.loop (I := fun found s' => s'.Grown V s.arena (↑(Block.ids found) + P) ∧
    V.Block s'.arena found) ?_ ⟨h.grown.cast (zero_add P).symm, Vocabulary.block_nil⟩
  rintro found s₁ ⟨h₁, hfound⟩
  rw [leaves_bind]
  have hskip : Leaves True Grammar.skipSemicolons
      (fun _ s₂ => s₂.arena = s₁.arena ∧ s₂.Grown V s.arena (↑(Block.ids found) + P)) s₁ :=
    ⟨rfl, ⟨fun t ht => h₁.sound.tokens t ((List.dropWhile_suffix _).subset ht), h₁.sound.owned,
      h₁.sound.nodes⟩, h₁.extend⟩
  refine hskip.mono fun _ s₂ ⟨harena, h₂⟩ => ?_
  rw [← harena] at hfound
  rw [leaves_bind]
  refine (blockEnds stop h₂.sound).mono fun ends s₃ h₃ => ?_
  have hfound : V.Block s₃.arena found :=
    Vocabulary.Block.mono (.refl V) (h₃.extend.keeps hV) hfound
  rw [leaves_ite]
  split
  · exact ⟨h₂.trans h₃, hfound⟩
  · rw [leaves_bind]
    refine (statement hV hg hV' h₃.sound).mono fun stmt s₄ ⟨h₄, hkind, hblocks⟩ => ?_
    refine ⟨((h₂.trans h₃).trans h₄).cast ?_, Vocabulary.block_append.2
      ⟨Vocabulary.Block.mono (.refl V) (h₄.extend.keeps hV) hfound, ?_⟩⟩
    · rw [Block.ids_append, Block.ids_cons, Block.ids_nil, List.append_nil, ← Multiset.coe_add]
      abel
    · refine Vocabulary.block_iff.2 fun t ht => ?_
      rw [List.mem_singleton.1 ht]
      exact ⟨hkind, hblocks⟩

/-! ## Chunks -/

omit hg in
/-- **Every unrolling of the grammar is sound.** -/
theorem level : ∀ n, (Grammar.level n).Sound V
  | 0 => ⟨fun _ _ _ _ => trivial, fun _ => trivial, fun _ => trivial, fun _ _ _ _ => trivial,
      fun _ _ _ _ => trivial⟩
  | n + 1 =>
    have hg := level n
    ⟨fun minimum => operation hV hg minimum, assignmentOrExpression hV hg, elementLiteral hV hg,
      fun stop => statements hV hg hV' stop, fun line => conditionalArm hV hg line⟩

end Grammar.Sound

/-- **What `parse` makes**: every id occurs exactly once, references lead
to earlier nodes, and nodes and statements are well-formed. -/
theorem parse_sound {V : Vocabulary} (hV : ∀ e, V.target e ↔ e.isAssignable) {tokens : List Token}
    {c : Chunk} (htokens : ∀ t ∈ tokens, V.Token t.kind) (h : parse tokens = .ok c) :
    c.arena.Owned ↑(Block.ids c.body) ∧ (∀ i, V.Node c.arena (c.arena.get i)) ∧
      V.Block c.arena c.body := by
  have hV₁ : ∀ e, V.target e → e.isAssignable := fun e => (hV e).1
  have hV₂ : ∀ e, e.isAssignable → V.target e := fun e => (hV e).2
  have hstart (endLine : ℕ) : ParseState.Sound V ⟨significant tokens, endLine, .empty⟩ 0 :=
    ⟨fun t ht => htokens t (List.mem_of_mem_filter ht), Arena.Owned.empty, fun i => by
      rw [Arena.get_of_size_le (Nat.zero_le _)]
      trivial⟩
  simp only [parse] at h
  split at h
  · rename_i body s' hrun
    have hbody := (Grammar.Sound.statements hV₁ (Grammar.Sound.level hV₁ hV₂ _) hV₂ .tokens
      (hstart _)).of_ok hrun
    obtain rfl := Except.ok.inj h
    rw [add_zero] at hbody
    exact ⟨hbody.1.sound.owned, hbody.1.sound.nodes, hbody.2⟩
  · cases h

/-- In a parsed chunk every id has one place. -/
theorem parse_owned {tokens : List Token} {c : Chunk} (h : parse tokens = .ok c) :
    c.arena.Owned ↑(Block.ids c.body) :=
  (parse_sound (V := ⟨fun _ => True, fun _ => True, fun e => e.isAssignable⟩)
    (fun _ => Iff.rfl) (fun t _ => by cases t.kind <;> trivial) h).1

end LuaSugar
