import Mathlib
import LuaSugar.Proofs.RoundTrip.Reading
import LuaSugar.Proofs.RoundTrip.Starts
/-!
# Precedence climbing

A chain of operands with operators between them can be grouped in many
ways, and one of them respects precedence and associativity. That is the
one precedence climbing builds.

An operand is a name with unary operators before it. What has been read of
a chain is an operation in good order, and what is left of the chain is
ahead of the parser; the operator that is next does not belong to what was
read. So the operation may become the left operand of that operator, and
the right operand of the operator before it.
-/

namespace LuaSugar

open LuaSugar.Parser

/-- Operators that bind alike associate alike. -/
theorem BinaryOp.isRightAssociative_eq (op : BinaryOp) :
    op.operator.isRightAssociative = decide (op.precedence = 4 ∨ op.precedence = 8) := by
  cases op <;> rfl

/-! ## Chains -/

/-- A name with the operators before it. -/
structure Operand where
  prefixes : List UnaryOp
  name : String

/-- An operator and the operand behind it. -/
structure Link where
  op : BinaryOp
  operand : Operand

/-- Operands with operators between them. -/
structure Chain where
  first : Operand
  links : List Link

namespace Operand

def tokens (o : Operand) : List TokenKind :=
  o.prefixes.map (fun op => .operator op.operator) ++ [.name o.name]

end Operand

def Link.tokens (link : Link) : List TokenKind :=
  .operator link.op.operator :: link.operand.tokens

/-- The tokens of links, one behind the other. -/
def linkTokens (links : List Link) : List TokenKind := links.flatMap Link.tokens

def Chain.tokens (c : Chain) : List TokenKind := c.first.tokens ++ linkTokens c.links

/-! ## Operations -/

/-- An operation on names. -/
inductive Operation where
  | name (text : String)
  | unary (op : UnaryOp) (operand : Operation)
  | binary (op : BinaryOp) (left right : Operation)

namespace Operation

/-- The tokens of an operation, in order and without parentheses. -/
def tokens : Operation → List TokenKind
  | name text => [.name text]
  | unary op operand => .operator op.operator :: operand.tokens
  | binary op left right => left.tokens ++ .operator op.operator :: right.tokens

/-- The operator of a binary operation. -/
def root? : Operation → Option BinaryOp
  | binary op _ _ => some op
  | _ => none

def isUnary : Operation → Bool
  | unary _ _ => true
  | _ => false

/-- **What may be a left operand**: a binary operation that binds tighter,
or as tightly if the operator associates to the left; and a unary
operation of anything but a power. -/
def FitsLeft (op : BinaryOp) (left : Operation) : Prop :=
  (∀ q ∈ left.root?, op.precedence < q.precedence ∨
    op.precedence = q.precedence ∧ op.operator.isRightAssociative = false) ∧
  (op = .pow → left.isUnary = false)

/-- **What may be a right operand**: a binary operation that binds tighter,
or as tightly if the operator associates to the right. -/
def FitsRight (op : BinaryOp) (right : Operation) : Prop :=
  ∀ q ∈ right.root?, op.precedence < q.precedence ∨
    op.precedence = q.precedence ∧ op.operator.isRightAssociative = true

/-- **What may have a unary operator before it**: a name, a unary operation
or a power. -/
def FitsUnary (operand : Operation) : Prop := ∀ q ∈ operand.root?, q = .pow

/-- Every operand fits its operator. -/
def Ordered : Operation → Prop
  | name _ => True
  | unary _ operand => operand.FitsUnary ∧ operand.Ordered
  | binary op left right => left.FitsLeft op ∧ right.FitsRight op ∧ left.Ordered ∧ right.Ordered

/-- An operation is in an arena, at an id. -/
def In (a : Arena) : Operation → ExprId → Prop
  | name text, i => a.get i = .atom (.name text)
  | unary op operand, i => ∃ j, a.get i = .arith (.unary op j) ∧ operand.In a j
  | binary op left right, i =>
    ∃ j k, a.get i = .arith (.binary op j k) ∧ left.In a j ∧ right.In a k

theorem In.mono {a b : Arena} (hab : a.Extends b) :
    ∀ {o : Operation} {i : ExprId}, o.In a i → o.In b i
  | name _, i, h => by
    rw [In, hab.get_eq i (Arena.inside_of_get_ne i (by rw [h]; simp)), h]
  | unary _ _, i, ⟨j, hi, hj⟩ => by
    refine ⟨j, ?_, hj.mono hab⟩
    rw [hab.get_eq i (Arena.inside_of_get_ne i (by rw [hi]; simp)), hi]
  | binary _ _ _, i, ⟨j, k, hi, hj, hk⟩ => by
    refine ⟨j, k, ?_, hj.mono hab, hk.mono hab⟩
    rw [hab.get_eq i (Arena.inside_of_get_ne i (by rw [hi]; simp)), hi]

/-! ## One good order -/

/-- The chain of an operation. -/
def chain : Operation → Chain
  | name text => ⟨⟨[], text⟩, []⟩
  | unary op operand =>
    ⟨⟨op :: operand.chain.first.prefixes, operand.chain.first.name⟩, operand.chain.links⟩
  | binary op left right =>
    ⟨left.chain.first, left.chain.links ++ ⟨op, right.chain.first⟩ :: right.chain.links⟩

theorem chain_tokens : ∀ o : Operation, o.chain.tokens = o.tokens
  | name _ => rfl
  | unary op operand => by
    rw [tokens, ← operand.chain_tokens]
    simp [chain, Chain.tokens, Operand.tokens]
  | binary op left right => by
    rw [tokens, ← left.chain_tokens, ← right.chain_tokens]
    simp [chain, Chain.tokens, linkTokens, Link.tokens]

/-- An operand as an operation. -/
def ofOperand (o : Operand) : Operation := o.prefixes.foldr unary (name o.name)

/-- One more operator and operand, put where they belong: into the right
operand of a binary operation if the operator is read there, and into the
operand of a unary operation if it is a power. -/
def link (l : Link) : Operation → Operation
  | name text => binary l.op (name text) (ofOperand l.operand)
  | unary op operand =>
    if l.op = .pow then unary op (operand.link l)
    else binary l.op (unary op operand) (ofOperand l.operand)
  | binary op left right =>
    if op.rightPrecedence ≤ l.op.precedence then binary op left (right.link l)
    else binary l.op (binary op left right) (ofOperand l.operand)

/-- Links behind an operation. -/
def linked (o : Operation) (links : List Link) : Operation := links.foldl (fun o l => o.link l) o

/-- The operation of a chain. -/
def ofChain (c : Chain) : Operation := (ofOperand c.first).linked c.links

theorem fitsRight_iff {op : BinaryOp} {right : Operation} :
    right.FitsRight op ↔ ∀ q ∈ right.root?, op.rightPrecedence ≤ q.precedence := by
  refine forall₂_congr fun q _ => ?_
  unfold BinaryOp.rightPrecedence
  split
  · rename_i hright
    simp only [hright, and_true]
    omega
  · rename_i hright
    simp only [hright, Bool.false_eq_true, and_false, or_false]
    omega

theorem pow_of_le {op : BinaryOp} (h : 8 ≤ op.precedence) : op = .pow := by
  cases op <;> first | rfl | exact absurd h (by decide)

/-- An operator that is not read in the right operand of another may come
behind it. -/
theorem fitsLeft_binary {op next : BinaryOp} {left right : Operation}
    (h : next.precedence < op.rightPrecedence) : (binary op left right).FitsLeft next := by
  refine ⟨fun q hq => ?_, fun _ => rfl⟩
  rw [← Option.some.inj hq]
  unfold BinaryOp.rightPrecedence at h
  split at h
  · exact .inl h
  · rename_i hleft
    rcases Nat.lt_or_eq_of_le (Nat.le_of_lt_succ h) with hlt | heq
    · exact .inl hlt
    · refine .inr ⟨heq, ?_⟩
      rw [BinaryOp.isRightAssociative_eq, heq, ← BinaryOp.isRightAssociative_eq]
      exact Bool.eq_false_iff.2 hleft

/-- An operator behind what may be its left operand takes it whole. -/
theorem link_of_fitsLeft {l : Link} : ∀ {o : Operation}, o.FitsLeft l.op →
    o.link l = binary l.op o (ofOperand l.operand)
  | name _, _ => rfl
  | unary op operand, h => if_neg fun hpow => nomatch h.2 hpow
  | binary q left right, h => by
    refine if_neg fun hunder => ?_
    rcases h.1 q rfl with hlt | ⟨heq, hleft⟩
    · unfold BinaryOp.rightPrecedence at hunder
      split at hunder <;> omega
    · rw [BinaryOp.isRightAssociative_eq] at hleft
      unfold BinaryOp.rightPrecedence at hunder
      rw [BinaryOp.isRightAssociative_eq, ← heq, hleft] at hunder
      simp only [Bool.false_eq_true, if_false] at hunder
      omega

/-- Links that go into the right operand. -/
theorem linked_binary {op : BinaryOp} {left : Operation} {links : List Link}
    (h : ∀ l ∈ links, op.rightPrecedence ≤ l.op.precedence) (right : Operation) :
    (binary op left right).linked links = binary op left (right.linked links) := by
  induction links generalizing right with
  | nil => rfl
  | cons l links ih =>
    rw [List.forall_mem_cons] at h
    show ((binary op left right).link l).linked links = _
    rw [link, if_pos h.1]
    exact ih h.2 _

/-- Powers go into the operand of a unary operation. -/
theorem linked_unary {op : UnaryOp} {links : List Link} (h : ∀ l ∈ links, l.op = .pow)
    (operand : Operation) : (unary op operand).linked links = unary op (operand.linked links) := by
  induction links generalizing operand with
  | nil => rfl
  | cons l links ih =>
    rw [List.forall_mem_cons] at h
    show ((unary op operand).link l).linked links = _
    rw [link, if_pos h.1]
    exact ih h.2 _

/-- **Operators inside** bind at least as tightly as the one at the root. -/
theorem Ordered.le_of_mem {m : ℕ} (hm : m ≤ 8) : ∀ {o : Operation}, o.Ordered →
    (∀ q ∈ o.root?, m ≤ q.precedence) → ∀ l ∈ o.chain.links, m ≤ l.op.precedence
  | name _, _, _, l, hl => nomatch hl
  | unary _ operand, ho, _, l, hl => by
    refine hm.trans (ho.2.le_of_mem le_rfl (fun q hq => ?_) l hl)
    rw [ho.1 q hq]
    exact le_rfl
  | binary op left right, ⟨hleft, hright, hl, hr⟩, hroot, l, hmem => by
    have hop : m ≤ op.precedence := hroot op rfl
    rcases List.mem_append.1 hmem with hmem | hmem
    · refine hl.le_of_mem hm (fun q hq => hop.trans ?_) l hmem
      rcases hleft.1 q hq with h | h <;> omega
    rcases List.mem_cons.1 hmem with rfl | hmem
    · exact hop
    · refine hr.le_of_mem hm (fun q hq => hop.trans ?_) l hmem
      rcases hright q hq with h | h <;> omega

/-- **An operation in good order is that of its chain.** -/
theorem Ordered.ofChain_chain : ∀ {o : Operation}, o.Ordered → ofChain o.chain = o
  | name _, _ => rfl
  | unary op operand, ho => by
    have hpow : ∀ l ∈ operand.chain.links, l.op = .pow := fun l hl =>
      pow_of_le (ho.2.le_of_mem le_rfl (fun q hq => by rw [ho.1 q hq]; exact le_rfl) l hl)
    show (unary op (ofOperand operand.chain.first)).linked operand.chain.links = _
    rw [linked_unary hpow]
    exact congrArg (unary op) ho.2.ofChain_chain
  | binary op left right, ⟨hleft, hright, hl, hr⟩ => by
    have hunder := hr.le_of_mem op.rightPrecedence_le (fitsRight_iff.1 hright)
    show (ofOperand left.chain.first).linked (left.chain.links ++ _ :: right.chain.links) = _
    rw [linked, List.foldl_append]
    show ((ofChain left.chain).link ⟨op, right.chain.first⟩).linked right.chain.links = _
    rw [hl.ofChain_chain, link_of_fitsLeft hleft, linked_binary hunder]
    exact congrArg (binary op left) hr.ofChain_chain

end Operation

/-! ## Chains are told by their tokens -/

theorem UnaryOp.operator_injective : Function.Injective UnaryOp.operator := by
  intro op op' h
  cases op <;> cases op' <;> first | rfl | cases h

theorem BinaryOp.operator_injective : Function.Injective BinaryOp.operator := by
  intro op op' h
  cases op <;> cases op' <;> first | rfl | cases h

theorem Operand.tokens_inj {o o' : Operand} {ts ts' : List TokenKind}
    (h : o.tokens ++ ts = o'.tokens ++ ts') : o = o' ∧ ts = ts' := by
  obtain ⟨prefixes, name⟩ := o
  obtain ⟨prefixes', name'⟩ := o'
  induction prefixes generalizing prefixes' with
  | nil =>
    cases prefixes' with
    | nil => simpa [Operand.tokens] using h
    | cons op' prefixes' => simp [Operand.tokens] at h
  | cons op prefixes ih =>
    cases prefixes' with
    | nil => simp [Operand.tokens] at h
    | cons op' prefixes' =>
      have hcons : TokenKind.operator op.operator :: ((⟨prefixes, name⟩ : Operand).tokens ++ ts) =
        .operator op'.operator :: ((⟨prefixes', name'⟩ : Operand).tokens ++ ts') := h
      obtain ⟨hop, hrest⟩ := List.cons.inj hcons
      obtain ⟨hoperand, hts⟩ := ih prefixes' hrest
      obtain ⟨rfl, rfl⟩ := Operand.mk.inj hoperand
      exact ⟨by rw [UnaryOp.operator_injective (TokenKind.operator.inj hop)], hts⟩

theorem linkTokens_inj :
    ∀ {links links' : List Link}, linkTokens links = linkTokens links' → links = links'
  | [], [], _ => rfl
  | [], _ :: _, h => by simp [linkTokens, Link.tokens] at h
  | _ :: _, [], h => by simp [linkTokens, Link.tokens] at h
  | ⟨op, operand⟩ :: links, ⟨op', operand'⟩ :: links', h => by
    have hcons : TokenKind.operator op.operator :: (operand.tokens ++ linkTokens links) =
      .operator op'.operator :: (operand'.tokens ++ linkTokens links') := h
    obtain ⟨hop, hrest⟩ := List.cons.inj hcons
    obtain ⟨rfl, hlinks⟩ := Operand.tokens_inj hrest
    rw [BinaryOp.operator_injective (TokenKind.operator.inj hop), linkTokens_inj hlinks]

theorem Chain.tokens_inj {c c' : Chain} (h : c.tokens = c'.tokens) : c = c' := by
  obtain ⟨first, links⟩ := c
  obtain ⟨first', links'⟩ := c'
  obtain ⟨hfirst, hlinks⟩ := Operand.tokens_inj h
  exact congrArg₂ Chain.mk hfirst (linkTokens_inj hlinks)

/-- **Only one operation in good order** has the tokens of a chain. -/
theorem Operation.Ordered.eq_ofChain {o : Operation} {c : Chain} (h : o.Ordered)
    (hc : o.tokens = c.tokens) : o = .ofChain c := by
  rw [← h.ofChain_chain, Chain.tokens_inj (o.chain_tokens.trans hc)]

/-! ## Climbing -/

/-- Tokens that an operation goes on with. -/
def TokenKind.IsBinary (k : TokenKind) : Prop := ∃ op : BinaryOp, k = .operator op.operator

/-- What stands behind a chain: no operator that goes on from it, and no
suffix. -/
structure EndsChain (us : List TokenKind) : Prop where
  operator : ∀ k ∈ us.head?, ¬ k.IsBinary
  suffix : NoSuffix us

/-- A binary operator goes on from an expression if it binds tightly
enough. -/
theorem continuation?_binary (m : ℕ) (op : BinaryOp) :
    Grammar.continuation? m (some (.operator op.operator)) =
      if op.precedence < m then none else some (op, op.operator, op.precedence) := by
  cases op <;> rfl

/-- Nothing else goes on from one. -/
theorem continuation?_ends (m : ℕ) {us : List TokenKind} (h : EndsChain us) :
    Grammar.continuation? m us.head? = none := by
  cases us with
  | nil => rfl
  | cons k us =>
    have hk := h.operator k rfl
    cases k with
    | operator op =>
      have hop : BinaryOp.ofOperator? op = none := by
        rw [Option.eq_none_iff_forall_ne_some]
        intro b hb
        have hb : b.operator = op := by simpa using List.find?_some hb
        exact hk ⟨b, by rw [hb]⟩
      rw [List.head?_cons, Grammar.continuation?, hop]
      cases op.precedence? <;> simp
    | _ => rfl

namespace Parser

variable {α σ : Type}

/-- A loop whose steps keep an invariant and read something, or end it. -/
theorem Leaves.loop_reads {step : σ → Parser (σ ⊕ α)} {I : σ → ParseState → Prop}
    {Q : α → ParseState → Prop}
    (hstep : ∀ v s, I v s → Leaves False (step v) (fun r s' => match r with
      | .inl v' => I v' s' ∧ s'.rest.length < s.rest.length
      | .inr a => Q a s') s) {start : σ} {s : ParseState} (h : I start s) :
    Leaves False (Parser.loop step start) Q s := by
  have hwithin : ∀ count v s, I v s → s.rest.length < count →
      Leaves False (loopWithin step count v) Q s := by
    intro count
    induction count with
    | zero => intro v s _ hlt; omega
    | succ count ih =>
      intro v s hv hlt
      rw [loopWithin, leaves_bind]
      refine (hstep v s hv).mono fun r s' hr => ?_
      cases r with
      | inl v' => exact ih v' s' hr.1 (by have := hr.2; omega)
      | inr a => exact hr
  exact hwithin _ start s h (Nat.lt_succ_self _)

end Parser

/-- Part of a chain has been read as an operation, and the rest of it is
ahead. -/
structure Climbed (s : ParseState) (c : Chain) (us : List TokenKind) (o : Operation)
    (todo : List Link) (i : ExprId) (s' : ParseState) : Prop where
  suffix : s'.rest <:+ s.rest
  extend : s.arena.Extends s'.arena
  before : s'.Before (linkTokens todo ++ us)
  inside : o.In s'.arena i
  tokens : o.tokens ++ linkTokens todo = c.tokens
  ordered : o.Ordered

/-- Recursive calls read chains of so many tokens: the answer binds as
tightly as was asked, and the next operator does not. -/
def Grammar.Climbs (g : Grammar) (n : ℕ) : Prop :=
  ∀ (m : ℕ) (c : Chain) (us : List TokenKind) (s : ParseState), EndsChain us →
    s.Before (c.tokens ++ us) → s.rest.length ≤ n →
    Leaves False (g.expression m) (fun i s' => ∃ o todo, Climbed s c us o todo i s' ∧
      (∀ q ∈ o.root?, m ≤ q.precedence) ∧ ∀ l ∈ todo.head?, l.op.precedence < m) s

namespace Grammar.Climbs

variable {g : Grammar} {n : ℕ} {c : Chain} {us : List TokenKind} {s : ParseState}

/-- Neither an operator nor what stands behind a chain is a suffix. -/
theorem noSuffix (hus : EndsChain us) : ∀ links : List Link, NoSuffix (linkTokens links ++ us)
  | [] => hus.suffix
  | l :: _ => noSuffix_operator l.op _

/-- What is no suffix is left. -/
theorem suffix {i : ExprId} (hus : NoSuffix us) (hs : s.Before us) :
    Leaves False (g.suffix true i) (fun r s' => r = .inr i ∧ s' = s) s := by
  rw [Grammar.suffix, leaves_bind, leaves_current, hs.kind?]
  cases us with
  | nil => exact ⟨rfl, rfl⟩
  | cons k us =>
    have hk := hus k rfl
    cases k with
    | operator op => cases op <;> first | exact ⟨rfl, rfl⟩ | cases hk
    | string bytes => cases hk
    | _ => exact ⟨rfl, rfl⟩

/-- A name is read with nothing behind it. -/
theorem name {text : String} {links : List Link} (hus : EndsChain us)
    (hs : s.Before (.name text :: (linkTokens links ++ us))) :
    Leaves False (g.suffixed true)
      (fun i s' => Climbed s ⟨⟨[], text⟩, links⟩ us (.name text) links i s') s := by
  rw [Grammar.suffixed, leaves_bind, Grammar.primary, leaves_bind, leaves_line, leaves_bind,
    leaves_current, hs.kind?]
  show Leaves False (readAtom (.name text)) _ s
  rw [readAtom, leaves_bind, leaves_advance, leaves_alloc]
  have hread : Climbed s ⟨⟨[], text⟩, links⟩ us (.name text) links
      (s.next.arena.alloc (.atom (.name text))).1
      { s.next with arena := (s.next.arena.alloc (.atom (.name text))).2 } :=
    ⟨List.tail_suffix _, Arena.extends_alloc s.next.arena _, hs.next, Arena.get_alloc_self _ _,
      rfl, trivial⟩
  refine Leaves.loop_reads
    (I := fun i s' => Climbed s ⟨⟨[], text⟩, links⟩ us (.name text) links i s')
    (fun i s' hs' => ?_) hread
  refine (suffix (noSuffix hus links) hs'.before).mono fun r s'' hr => ?_
  obtain ⟨rfl, rfl⟩ := hr
  exact hs'

variable (hg : g.Climbs n)
include hg

/-- **An operand** is read with the operators before it, and powers behind
it belong to the last of these. -/
theorem unary (hus : EndsChain us) (hs : s.Before (c.tokens ++ us)) (hn : s.rest.length ≤ n + 1) :
    Leaves False g.unary (fun i s' => ∃ o todo, Climbed s c us o todo i s' ∧ o.root? = none ∧
      ∀ l ∈ todo.head?, o.FitsLeft l.op) s := by
  obtain ⟨⟨prefixes, text⟩, links⟩ := c
  rw [Grammar.unary, leaves_bind, leaves_current]
  cases prefixes with
  | nil =>
    have hs : s.Before (.name text :: (linkTokens links ++ us)) := hs
    rw [hs.kind?]
    refine (name hus hs).mono fun i s' hread => ⟨.name text, links, hread, rfl, fun l _ => ?_⟩
    exact ⟨fun q hq => (nomatch hq), fun _ => rfl⟩
  -- what the operator is in front of is read as a chain with one prefix less
  | cons op prefixes =>
    have hs : s.Before
        (.operator op.operator :: ((⟨⟨prefixes, text⟩, links⟩ : Chain).tokens ++ us)) := hs
    have hoperator : UnaryOp.ofOperator? op.operator = some op := by cases op <;> rfl
    have hlength := hs.length_next
    rw [hs.kind?]
    simp only [List.head?_cons, hoperator]
    rw [leaves_bind, leaves_advance, leaves_bind]
    refine (hg _ _ us s.next hus hs.next (by omega)).mono
      fun j s' ⟨o, todo, hread, hroot, hnext⟩ => ?_
    rw [leaves_alloc]
    have hext := Arena.extends_alloc s'.arena (.arith (.unary op j))
    refine ⟨.unary op o, todo, ⟨hread.suffix.trans (List.tail_suffix _), hread.extend.trans hext,
      hread.before, ⟨j, Arena.get_alloc_self _ _, hread.inside.mono hext⟩, ?_, ?_, hread.ordered⟩,
      rfl, ?_⟩
    · exact congrArg (TokenKind.operator op.operator :: ·) hread.tokens
    -- a prefix binds tighter than all operators but powers
    · exact fun q hq => Operation.pow_of_le (hroot q hq)
    · refine fun l hl => ⟨fun q hq => (nomatch hq), fun hpow => ?_⟩
      have hlt := hnext l hl
      rw [hpow] at hlt
      exact absurd hlt (by decide)

/-- **Operators that bind tightly enough** are read with their right
operands. -/
theorem operation (m : ℕ) (hus : EndsChain us) (hs : s.Before (c.tokens ++ us))
    (hn : s.rest.length ≤ n + 1) :
    Leaves False (g.operation m) (fun i s' => ∃ o todo, Climbed s c us o todo i s' ∧
      (∀ q ∈ o.root?, m ≤ q.precedence) ∧ ∀ l ∈ todo.head?, l.op.precedence < m) s := by
  rw [Grammar.operation, leaves_bind]
  refine (unary hg hus hs hn).mono fun i s₁ ⟨o, todo, hread, hroot, hfits⟩ => ?_
  -- what has been read fits the operator that is next
  refine Leaves.loop_reads (I := fun i s' => ∃ o todo, Climbed s c us o todo i s' ∧
    (∀ q ∈ o.root?, m ≤ q.precedence) ∧ ∀ l ∈ todo.head?, o.FitsLeft l.op) (fun i s' hs' => ?_)
    ⟨o, todo, hread, by simp [hroot], hfits⟩
  obtain ⟨o, todo, hread, hroot, hfits⟩ := hs'
  rw [Grammar.binaryStep, leaves_bind, leaves_current, hread.before.kind?]
  cases todo with
  | nil =>
    rw [show (linkTokens [] ++ us).head? = us.head? from rfl, continuation?_ends m hus]
    exact ⟨o, [], hread, hroot, by simp⟩
  | cons l todo =>
    have hbefore : s'.Before
        (.operator l.op.operator :: ((⟨l.operand, todo⟩ : Chain).tokens ++ us)) :=
      hread.before.cast (by simp [linkTokens, Link.tokens, Chain.tokens])
    rw [show (linkTokens (l :: todo) ++ us).head? = some (.operator l.op.operator) from rfl,
      continuation?_binary]
    by_cases hlt : l.op.precedence < m
    · rw [if_pos hlt]
      refine ⟨o, l :: todo, hread, hroot, fun l' hl' => ?_⟩
      rwa [← Option.some.inj hl']
    rw [if_neg hlt]
    show Leaves False (advance >>= fun _ => g.expression l.op.rightPrecedence >>= _) _ s'
    have hlength := hbefore.length_next
    have hshorter := hread.suffix.length_le
    rw [leaves_bind, leaves_advance, leaves_bind]
    refine (hg _ _ us s'.next hus hbefore.next (by omega)).mono
      fun j s'' ⟨right, todo', hright, hrightRoot, hnext⟩ => ?_
    rw [leaves_map, leaves_build]
    have hext := Arena.extends_alloc s''.arena (.arith (.binary l.op i j))
    have hread' : Climbed s c us (.binary l.op o right) todo'
        (s''.arena.alloc (.arith (.binary l.op i j))).1
        { s'' with arena := (s''.arena.alloc (.arith (.binary l.op i j))).2 } := by
      refine ⟨(hright.suffix.trans (List.tail_suffix _)).trans hread.suffix,
        (hread.extend.trans hright.extend).trans hext, hright.before, ?_, ?_, ?_⟩
      · exact ⟨i, j, Arena.get_alloc_self _ _, hread.inside.mono (hright.extend.trans hext),
          hright.inside.mono hext⟩
      · have htokens := hright.tokens
        rw [← hread.tokens]
        simp only [Operation.tokens, List.append_assoc, List.cons_append, htokens]
        simp [linkTokens, Link.tokens, Chain.tokens]
      · exact ⟨hfits l rfl, Operation.fitsRight_iff.2 hrightRoot, hread.ordered, hright.ordered⟩
    have hless := hright.suffix.length_le
    refine ⟨⟨_, todo', hread', fun q hq => ?_, fun l' hl' => ?_⟩, ?_⟩
    · rw [← Option.some.inj hq]
      omega
    · exact Operation.fitsLeft_binary (hnext l' hl')
    · show s''.rest.length < s'.rest.length
      omega

omit hg in
/-- **Every unrolling of the grammar climbs.** -/
theorem level : ∀ n, (Grammar.level n).Climbs n
  | 0 => fun m c us s _ hs hn => by
    rw [hs.length, List.length_append, Chain.tokens, Operand.tokens] at hn
    simp at hn
  | n + 1 => fun m c us s hus hs hn => operation (level n) m hus hs hn

end Grammar.Climbs

/-- **Precedence climbing** reads a chain, whole and no more, as the one
operation in good order that has its tokens. -/
theorem Grammar.expression_climbs {c : Chain} {ts rest : List Token} {s : ParseState} {n : ℕ}
    (hs : s.rest = ts ++ rest) (hts : ts.map Token.kind = c.tokens)
    (hrest : EndsChain (rest.map Token.kind)) (hn : s.rest.length ≤ n) :
    ∃ i s' o, (Grammar.level n).expression 1 s = .ok (i, s') ∧ s'.rest = rest ∧
      s.arena.Extends s'.arena ∧ o.In s'.arena i ∧ o.tokens = c.tokens ∧ o.Ordered ∧
      ∀ o' : Operation, o'.Ordered → o'.tokens = c.tokens → o' = o := by
  have hbefore : s.Before (c.tokens ++ rest.map Token.kind) := by
    rw [ParseState.Before, hs, List.map_append, hts]
  have hread := Grammar.Climbs.level n 1 c _ s hrest hbefore hn
  unfold Leaves at hread
  split at hread
  · rename_i i s' hrun
    obtain ⟨o, todo, hread, -, hnext⟩ := hread
    -- every operator binds at least as tightly as 1, so none is left
    obtain rfl : todo = [] := by
      cases todo with
      | nil => rfl
      | cons l todo =>
        have hlt := hnext l rfl
        have hpos : ∀ op : BinaryOp, 1 ≤ op.precedence := fun op => by cases op <;> decide
        have := hpos l.op
        omega
    have htokens : o.tokens = c.tokens := by
      have htokens := hread.tokens
      rwa [show linkTokens [] = [] from rfl, List.append_nil] at htokens
    refine ⟨i, s', o, hrun, ?_, hread.extend, hread.inside, htokens, hread.ordered,
      fun o' ho' h' => ?_⟩
    · have hlength := hread.before.length
      have hsuffix : rest <:+ s.rest := hs ▸ List.suffix_append ts rest
      refine (List.suffix_of_suffix_length_le hread.suffix hsuffix ?_).eq_of_length ?_
      all_goals simp [hlength, linkTokens]
    · rw [ho'.eq_ofChain h', hread.ordered.eq_ofChain htokens]
  · exact hread.elim

/-- The tokens of `-a ^ -b - c,`. -/
def negatedPower : List Token :=
  [.operator .minus, .name "a", .operator .caret, .operator .minus, .name "b", .operator .minus,
    .name "c", .operator .comma].map fun kind => ⟨kind, 1, .plain⟩

theorem Grammar.expression_climbs_negatedPower : ∃ i s',
    (Grammar.level 8).expression 1 ⟨negatedPower, 1, .empty⟩ = .ok (i, s') ∧
      s'.rest = [⟨.operator .comma, 1, .plain⟩] ∧
      (Operation.binary .sub (.unary .neg (.binary .pow (.name "a") (.unary .neg (.name "b"))))
        (.name "c")).In s'.arena i := by
  have hends : EndsChain [.operator .comma] := by
    refine ⟨?_, by rintro _ ⟨⟩; rfl⟩
    rintro _ ⟨⟩ ⟨op, hop⟩
    cases op <;> cases hop
  obtain ⟨i, s', o, hrun, hrest, -, hin, -, -, hunique⟩ := Grammar.expression_climbs
    (c := ⟨⟨[.neg], "a"⟩, [⟨.pow, ⟨[.neg], "b"⟩⟩, ⟨.sub, ⟨[], "c"⟩⟩]⟩) (n := 8)
    (s := ⟨negatedPower, 1, .empty⟩) (List.take_append_drop 7 negatedPower).symm rfl hends
    (by decide)
  have hordered : (Operation.binary .sub (.unary .neg (.binary .pow (.name "a")
      (.unary .neg (.name "b")))) (.name "c")).Ordered := by
    simp [Operation.Ordered, Operation.FitsLeft, Operation.FitsRight, Operation.FitsUnary,
      Operation.root?, Operation.isUnary]
  exact ⟨i, s', hrun, hrest, hunique _ hordered rfl ▸ hin⟩

end LuaSugar
