import Mathlib
import LuaSugar.Proofs.Parser.Refines
import LuaSugar.Proofs.RoundTrip.Chunks
/-!
# Parentheses around calls

Parentheses of its own cut a call or `...` down to one value, and a chunk
does not keep them. So they are told by reading. A grammar that **spares**
some ids fails where a call or `...` among them stands in parentheses that
no suffix follows, and otherwise does what the grammar does. An id is
**enclosed** in a text that cannot be read with it spared.

Nothing is enclosed in what is written of a script: whichever ids are
spared, it is read.
-/

namespace LuaSugar

open LuaSugar.Parser

namespace Grammar

/-- The grammar unrolled once more, with some ids spared. -/
def sparing (spared : ExprId → Bool) (g : Grammar) : Grammar :=
  { g.unroll with
    -- what an assignment assigns is read here as well, but plain Lua has no such expression
    assignment := do
      let i ← g.assignmentOrExpression
      let (_, next) ← lookAhead
      let s ← get
      if (s.arena.get i).spreads && spared i && !next.any TokenKind.opensSuffix then fail .stalled
      else pure i }

/-- The grammar unrolled so many times, with some ids spared. -/
def sparingLevel (spared : ExprId → Bool) : ℕ → Grammar
  | 0 => stalled
  | n + 1 => (sparingLevel spared n).sparing spared

namespace Reads

variable {a : Arena} {h : ExprId → ℕ} {known : ExprId → Prop} {g : Grammar} {n : ℕ}

/-- **Sparing reads what the grammar reads** of a script. -/
theorem sparing (spared : ExprId → Bool) (hw : a.Script h known) (hg : g.Reads a h known n) :
    (g.sparing spared).Reads a h known (n + 1) where
  expression := (unroll hw hg).expression
  block := (unroll hw hg).block
  ifArm := (unroll hw hg).ifArm
  assignment := by
    intro i ts us s hi hts hsuffix hs hn
    refine (assignmentOrExpression hw hg hi hts hs (Nat.le_of_lt_succ hn)).bind fun j s₁ h₁ hj => ?_
    obtain ⟨e, he⟩ := hj.expr
    have hallowed : ((s₁.arena.get j).spreads && spared j && !us.head?.any TokenKind.opensSuffix) =
        false := by
      cases hspreads : (s₁.arena.get j).spreads with
      | false => rfl
      | true =>
        rw [Comparison.spreads_of_expr he] at hspreads
        obtain ⟨k, hk, hopens⟩ := hsuffix hspreads
        rw [hk, Option.any_some, hopens, Bool.not_true, Bool.and_false]
    rw [h₁.before.lookAhead]
    show Parser.Reads (get >>= _) _ _ _
    rw [Parser.Reads, leaves_bind, leaves_get, List.tail_cons, hallowed, if_neg Bool.false_ne_true]
    exact ⟨.refl h₁.before, hj⟩

theorem sparingLevel (spared : ExprId → Bool) (hw : a.Script h known) :
    ∀ n, (Grammar.sparingLevel spared n).Reads a h known n
  | 0 => stalled
  | n + 1 => sparing spared hw (sparingLevel spared hw n)

end Reads

variable {g g' : Grammar} {spared : ExprId → Bool}

theorem Refines.sparing (h : g.Refines g') : (g.sparing spared).Refines g'.unroll where
  expression := h.unroll.expression
  element := h.unroll.element
  block := h.unroll.block
  ifArm := h.unroll.ifArm
  assignment := by
    rw [← bind_pure g'.unroll.assignment]
    refine .bind h.assignmentOrExpression fun i s r hr => ?_
    have hr : (if (s.arena.get i).spreads && spared i && !s.next.kind?.any TokenKind.opensSuffix then
        fail .stalled else pure i : Parser ExprId) s = .ok r := hr
    split at hr
    · cases hr
    · exact hr

theorem Refines.sparingLevel : ∀ n, (sparingLevel spared n).Refines (level n)
  | 0 => ⟨fun _ => .refl _, .refl _, .refl _, fun _ => .refl _, fun _ => .refl _⟩
  | n + 1 => (Refines.sparingLevel n).sparing

end Grammar

/-- **What is read with ids spared** is read without as the same chunk. -/
theorem parse_of_sparing {spared : ExprId → Bool} {tokens : List Token} {c : Chunk}
    (h : parseWith (Grammar.sparingLevel spared) tokens = .ok c) : parse tokens = .ok c := by
  unfold parseWith at h
  dsimp only at h
  split at h
  · rename_i hrun
    have hrun' := (Grammar.Refines.sparingLevel _).statements .tokens _ _ hrun
    rw [parse, StateT.run, hrun']
    exact h
  · cases h

/-- A call or `...` stands in parentheses of its own. -/
def enclosed (tokens : List Token) (i : ExprId) : Bool :=
  !(parseWith (Grammar.sparingLevel (· == i)) tokens).isOk

/-- **An id is not enclosed** in a text that is read with it spared, that is,
read as it is without. -/
theorem enclosed_eq_false {tokens : List Token} {i : ExprId} {c : Chunk} (hparse : parse tokens = .ok c) :
    enclosed tokens i = false ↔ parseWith (Grammar.sparingLevel (· == i)) tokens = .ok c := by
  rw [enclosed, Bool.not_eq_false']
  cases hrun : parseWith (Grammar.sparingLevel (· == i)) tokens with
  | error e => simp [Except.isOk, Except.toBool]
  | ok d =>
    obtain rfl := Except.ok.inj (hparse.symm.trans (parse_of_sparing hrun))
    simp [Except.isOk, Except.toBool]

end LuaSugar
