import Mathlib
import LuaSugar.Proofs.Parser.Strict
import LuaSugar.Proofs.RoundTrip.Chunks
/-!
# What the grammar leaves unchecked

Lua wants names, members and subscripts on the left of an assignment, and
nothing behind a `return`. The grammar sees to the first in statements
only and to the second not at all. A strict parse tells which chunks are
in order. Desugaring keeps them in order, and they are the chunks that can
be written as plain Lua, as far as their numbers can.
-/

namespace LuaSugar

/-- What a statement assigns to. -/
def StmtKind.targets : StmtKind → List ExprId
  | .assign targets _ => targets
  | .compoundAssign target _ _ => [target]
  | _ => []

/-- A statement assigns to names, members and subscripts. -/
def StmtKind.Assigns (a : Arena) (kind : StmtKind) : Prop :=
  ∀ t ∈ kind.targets, (a.get t).isAssignable

def Expr.Assigns (a : Arena) : Expr → Prop
  | .atom (.func func) => Block.Everywhere (StmtKind.Assigns a) func.body
  | _ => True

/-- A vocabulary in which only targets are told from other nodes. -/
def Vocabulary.assigning : Vocabulary := ⟨fun _ => True, fun _ => True, fun e => e.isAssignable⟩

theorem Vocabulary.assigning_stable : Vocabulary.assigning.Stable where
  target _ h := h
  other _ _ he hother := absurd (hother.symm.trans he) Bool.false_ne_true
  require := trivial
  holder _ := trivial
  argument := trivial
  self := trivial

namespace Chunk

/-- Assignment statements assign to names, members and subscripts, at every
depth of the body and of function literals. -/
structure AssignsTargets (c : Chunk) : Prop where
  body : Block.Everywhere (StmtKind.Assigns c.arena) c.body
  literals : ∀ i, (c.arena.get i).Assigns c.arena

/-- Returns stand last, at every depth of the body and of function
literals. -/
structure Orderly (c : Chunk) : Prop where
  body : Block.Orderly c.body
  literals : ∀ i, (c.arena.get i).Orderly

section Decidable

instance (a : Arena) (body : Block) : Decidable (Block.Everywhere (StmtKind.Assigns a) body) :=
  inferInstanceAs (Decidable (∀ s ∈ Block.deep body, ∀ t ∈ s.kind.targets, (a.get t).isAssignable))

instance (a : Arena) : (e : Expr) → Decidable (e.Assigns a)
  | .atom (.func func) =>
    inferInstanceAs (Decidable (Block.Everywhere (StmtKind.Assigns a) func.body))
  | .atom (.number _) | .atom (.string _) | .atom (.boolean _) | .atom .nil | .atom (.name _)
  | .atom .vararg | .atom (.table _) | .atom (.element _) | .arith _ => .isTrue trivial

instance (c : Chunk) : Decidable c.AssignsTargets :=
  have hliterals := Arena.forall_get (a := c.arena) (P := Expr.Assigns c.arena) trivial
  decidable_of_iff (Block.Everywhere (StmtKind.Assigns c.arena) c.body ∧
    ∀ e ∈ c.arena.nodes.toList, e.Assigns c.arena)
    ⟨fun h => ⟨h.1, hliterals.2 h.2⟩, fun h => ⟨h.body, hliterals.1 h.literals⟩⟩

instance (c : Chunk) : Decidable c.Orderly :=
  decidable_of_iff (Block.Orderly c.body ∧ ∀ e ∈ c.arena.nodes.toList, e.Orderly)
    ⟨fun h => ⟨h.1, (Arena.forall_get trivial).2 h.2⟩,
      fun h => ⟨h.body, (Arena.forall_get trivial).1 h.literals⟩⟩

end Decidable

variable {c : Chunk} {tokens : List Token}

/-- A statement of the vocabulary assigns to targets. -/
theorem assigns_of_stmt {a : Arena} : ∀ {kind : StmtKind}, Vocabulary.assigning.Stmt a kind →
    kind.Assigns a
  | .assign _ _, h, t, ht => h.2.2 t ht
  | .compoundAssign _ _ _, h, _, ht => (List.mem_singleton.1 ht).symm ▸ h

theorem AssignsTargets.of_nodes (hbody : Vocabulary.assigning.Block c.arena c.body)
    (hnodes : ∀ i, Vocabulary.assigning.Node c.arena (c.arena.get i)) : c.AssignsTargets := by
  refine ⟨Block.Everywhere.mono hbody fun _ => assigns_of_stmt, fun i => ?_⟩
  have hnode := hnodes i
  cases he : c.arena.get i with
  | atom atom =>
    rw [he] at hnode
    cases atom with
    | func func => exact Block.Everywhere.mono hnode.2 fun _ => assigns_of_stmt
    | _ => trivial
  | arith arith => trivial

theorem Sound.assignsTargets {R : Prop} (h : c.Sound .assigning R) : c.AssignsTargets := by
  obtain ⟨rank, hsound⟩ := h.arena
  exact .of_nodes h.body hsound.nodes

theorem Sound.orderly_chunk {V : Vocabulary} (h : c.Sound V True) : c.Orderly := by
  obtain ⟨rank, hsound⟩ := h.arena
  exact ⟨h.orderly trivial, hsound.orderly trivial⟩

end Chunk

/-! ## Strict parses -/

variable {tokens : List Token} {c : Chunk}

/-- The nodes of a parsed chunk refer to earlier ones, so what they assign
to was there when they were made. -/
theorem Strictness.arena_of_parse {k : Strictness} (h : parse tokens = .ok c) :
    k.Arena c.arena ↔ (k.targets → ∀ i, (c.arena.get i).assignsTarget c.arena) ∧
      (k.returns → ∀ i, (c.arena.get i).Orderly) := by
  have howned := parse_owned h
  have hexpr (e : LuaSugar.Expr) : k.Expr c.arena e ↔
      (k.targets → e.assignsTarget c.arena) ∧ (k.returns → e.Orderly) := by
    cases e with
    | atom atom =>
      cases atom <;> simp [Strictness.Expr, Strictness.Block, Expr.assignsTarget, Expr.Orderly]
    | arith arith => cases arith <;> simp [Strictness.Expr, Expr.assignsTarget, Expr.Orderly]
  constructor
  · intro ha
    exact ⟨fun hk i => ((hexpr _).1 (ha i).1).1 hk, fun hk i => ((hexpr _).1 (ha i).1).2 hk⟩
  · rintro ⟨htargets, hreturns⟩ i
    refine ⟨(hexpr _).2 ⟨fun hk => htargets hk i, fun hk => hreturns hk i⟩, ?_⟩
    intro op target value hi _
    refine howned.lower i target ?_
    rw [Arena.Refers, hi]
    simp [Expr.refs, Expr.children]

/-- **What is assigned to.** The assignment statements of a parsed chunk
assign to names, members and subscripts, at every depth. The assignments
in parentheses do if and only if a parse that looks at what they assign to
accepts the same tokens, and then the statements that desugaring makes of
them do as well. -/
theorem parse_targets (h : parse tokens = .ok c) :
    c.AssignsTargets ∧
    (parseStrictly ⟨true, false⟩ tokens = .ok c ↔ ∀ i, (c.arena.get i).assignsTarget c.arena) ∧
    ((∀ i, (c.arena.get i).assignsTarget c.arena) →
      ∀ constructor, (desugar constructor c).1.AssignsTargets) := by
  obtain ⟨-, hnodes, hbody⟩ := parse_sound (V := .assigning) (fun _ => Iff.rfl)
    (fun t _ => by cases t.kind <;> trivial) h
  refine ⟨.of_nodes hbody hnodes, ?_, fun htargets constructor => ?_⟩
  · rw [parseStrictly_eq_ok, Strictness.arena_of_parse h]
    refine ⟨fun hk => hk.2.1.1 rfl, fun ht => ⟨h, ⟨fun _ => ht, ?_⟩, ?_⟩⟩
    · exact fun hk => nomatch hk
    · exact fun hk => nomatch hk
  · have hsound : c.Sound .assigning False := by
      refine .of_parse (fun _ => id) (fun t _ => by cases t.kind <;> trivial) h
        (fun i op target value hi => ?_) False.elim
      have htarget := htargets i
      rwa [hi] at htarget
    exact (hsound.desugared Vocabulary.assigning_stable trivial).assignsTargets

theorem parse_targets_nested : ∃ tokens c,
    tokenize "local function f(t) t[1], t.a = (x = 1), 2 end" = .ok tokens ∧ parse tokens = .ok c ∧
      c.AssignsTargets ∧ (desugar "h" c).1.AssignsTargets := by
  obtain ⟨tokens, c, htokens, hparse, hwritable⟩ :=
    exists_parsed (P := fun tokens c => Writable tokens c)
      "local function f(t) t[1], t.a = (x = 1), 2 end" (by decide +kernel)
  obtain ⟨htargets, -, hdesugared⟩ := parse_targets hparse
  exact ⟨tokens, c, htokens, hparse, htargets, hdesugared hwritable.targets "h"⟩

/-- A call is assigned to in parentheses, and then in the statement that is
made of it. -/
theorem parse_targets_call : ∃ tokens c, tokenize "print((f() = 1))" = .ok tokens ∧
    parse tokens = .ok c ∧ (c.arena.get ⟨4⟩).assignsTarget c.arena = false ∧
      ¬ (desugar "h" c).1.AssignsTargets :=
  exists_parsed _ (by decide +kernel)

/-- **Returns.** The returns of a parsed chunk stand last in their lists, at
every depth, if and only if a parse that goes on behind no `return`
accepts the same tokens; and then they do in what desugaring makes of it. -/
theorem parse_returns (h : parse tokens = .ok c) :
    (parseStrictly ⟨false, true⟩ tokens = .ok c ↔ c.Orderly) ∧
    (c.Orderly → ∀ constructor, (desugar constructor c).1.Orderly) := by
  refine ⟨?_, fun horderly constructor => ?_⟩
  · rw [parseStrictly_eq_ok, Strictness.arena_of_parse h]
    exact ⟨fun hk => ⟨hk.2.2 rfl, hk.2.1.2 rfl⟩,
      fun ho => ⟨h, ⟨fun hk => (nomatch hk), fun _ => ho.literals⟩, fun _ => ho.body⟩⟩
  · have hsound : c.Sound .anything True :=
      .of_parse (fun _ _ => trivial) (fun t _ => by cases t.kind <;> trivial) h
        (fun _ _ _ _ _ => trivial) fun _ => ⟨horderly.body, horderly.literals⟩
    exact (hsound.desugared Vocabulary.anything_stable trivial).orderly_chunk

theorem parse_returns_nested : ∃ tokens c,
    tokenize "if x then return; end return function() do return 1 end end" = .ok tokens ∧
      parse tokens = .ok c ∧ parseStrictly ⟨false, true⟩ tokens = .ok c ∧
      (desugar "h" c).1.Orderly := by
  obtain ⟨tokens, c, htokens, hparse, horderly⟩ := exists_parsed (P := fun _ c => c.Orderly)
    "if x then return; end return function() do return 1 end end" (by decide +kernel)
  obtain ⟨hstrict, hdesugared⟩ := parse_returns hparse
  exact ⟨tokens, c, htokens, hparse, hstrict.2 horderly, hdesugared horderly "h"⟩

/-- A call stands behind a `return`. What is written of it is what is written
of a `return` with the call for its value. -/
theorem parse_returns_call : ∃ tokens c, tokenize "return; print(x)" = .ok tokens ∧
    parse tokens = .ok c ∧ ¬ Block.ReturnsLast c.body ∧ (desugar "h" c).1.wording =
      [.keyword .return_, .name "print", .operator .leftParen, .name "x", .operator .rightParen] :=
  exists_parsed _ (by decide +kernel)

end LuaSugar
