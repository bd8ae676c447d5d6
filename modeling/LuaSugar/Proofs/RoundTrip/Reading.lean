import Mathlib
import LuaSugar.Proofs.Parser.Outcome
import LuaSugar.Proofs.Syntax.Places
import LuaSugar.Proofs.Render.Wording
import LuaSugar.Proofs.RoundTrip.Agreement
/-!
# Parsers that read what stands before them

A parser is followed from a state that stands **before** some tokens to
one that stands before the rest of them, with more nodes in its arena and
no table that is not settled. It is shown to succeed, so a loop has to come
to an end by itself: every repetition reads a token, and a loop has one
repetition more than there are tokens.
-/

namespace LuaSugar

namespace ParseState

variable {s s' : ParseState} {a : Arena} {kind : TokenKind} {ts us : List TokenKind}

/-- What is left to read has these kinds. -/
def Before (s : ParseState) (ts : List TokenKind) : Prop := s.rest.map Token.kind = ts

/-- A parser that started with some arena stands before these tokens. -/
structure Reached (a : Arena) (us : List TokenKind) (s : ParseState) : Prop where
  before : s.Before us
  extend : a.Extends s.arena
  settled : a.Settled → s.arena.Settled

namespace Before

/-- What stands before tokens sees the first of them. -/
theorem kind? (h : s.Before ts) : s.kind? = ts.head? := by
  rw [ParseState.kind?, ← h, List.head?_map]

/-- Behind a token stand the others. -/
theorem next (h : s.Before (kind :: ts)) : s.next.Before ts := by
  rw [Before, next_rest, List.map_tail, h]
  rfl

/-- As many tokens are left as are listed. -/
theorem length (h : s.Before ts) : s.rest.length = ts.length := by
  rw [← h, List.length_map]

/-- Behind some tokens there are fewer. -/
theorem length_le (h : s.Before (ts ++ us)) (h' : s'.Before us) :
    s'.rest.length ≤ s.rest.length := by
  rw [h.length, h'.length, List.length_append]
  omega

theorem length_next (h : s.Before (kind :: ts)) : s.next.rest.length + 1 = s.rest.length := by
  rw [h.length, h.next.length, List.length_cons]

theorem cast (h : s.Before ts) (hts : ts = us) : s.Before us := hts ▸ h

end Before

namespace Reached

/-- A state has reached itself. -/
theorem refl (h : s.Before us) : s.Reached s.arena us := ⟨h, .refl _, id⟩

/-- One token further nothing else has changed. -/
theorem of_next (h : s.next.Before us) : s.next.Reached s.arena us := ⟨h, .refl _, id⟩

/-- What is reached from a reached state is reached. -/
theorem trans (h : s'.Reached s.arena us) (hs : s.Reached a ts) : s'.Reached a us :=
  ⟨h.before, hs.extend.trans h.extend, fun ha => h.settled (hs.settled ha)⟩

/-- A node that was added. -/
theorem alloc (h : s.Reached a us) {e : Expr} (he : e.Settled) :
    Reached a us { s with arena := (s.arena.alloc e).2 } :=
  ⟨h.before, h.extend.trans (Arena.extends_alloc _ e), fun ha => (h.settled ha).alloc he⟩

end Reached

end ParseState

namespace Parser

variable {α β σ : Type} {s : ParseState}

/-- From a state, a parser succeeds and stands before some tokens, and its
answer fits its arena. -/
def Reads (p : Parser α) (s : ParseState) (us : List TokenKind) (J : Arena → α → Prop) : Prop :=
  Leaves False p (fun v s' => s'.Reached s.arena us ∧ J s'.arena v) s

section Rules

variable {f : β → Parser α} {ts us : List TokenKind} {J J' : Arena → α → Prop}

/-- A value is read without a token. -/
theorem Reads.pure {v : α} (h : s.Before us) (hv : J s.arena v) : (Pure.pure v : Parser α).Reads s us J :=
  ⟨.refl h, hv⟩

/-- **One parser behind another.** -/
theorem Reads.bind {p : Parser β} {I : Arena → β → Prop} (hp : p.Reads s ts I)
    (hf : ∀ v s', s'.Reached s.arena ts → I s'.arena v → (f v).Reads s' us J) :
    (p >>= f).Reads s us J := by
  rw [Reads, leaves_bind]
  exact Leaves.mono hp fun v s' ⟨hs', hv⟩ => Leaves.mono (hf v s' hs' hv) fun _ _ ⟨h, hw⟩ =>
    ⟨h.trans hs', hw⟩

/-- What is made of a value that is read. -/
theorem Reads.map {p : Parser β} {F : β → α} {I : Arena → β → Prop} (hp : p.Reads s us I)
    (hF : ∀ (v : β) (s' : ParseState), s'.Reached s.arena us → I s'.arena v → J s'.arena (F v)) :
    (F <$> p).Reads s us J := by
  rw [Reads, leaves_map]
  exact Leaves.mono hp fun v s' ⟨hs', hv⟩ => ⟨hs', hF v s' hs' hv⟩

/-- A parser that reads has an answer. -/
theorem Reads.exists_run {p : Parser α} (h : p.Reads s us J) :
    ∃ v s', p.run s = .ok (v, s') ∧ s'.Reached s.arena us ∧ J s'.arena v := by
  unfold Reads Leaves at h
  split at h
  · exact ⟨_, _, ‹_›, h⟩
  · exact h.elim

/-- What is said of the value can be weakened. -/
theorem Reads.imp {p : Parser α} (hp : p.Reads s us J) (hJ : ∀ b v, J b v → J' b v) :
    p.Reads s us J' :=
  Leaves.mono hp fun _ _ ⟨hs', hv⟩ => ⟨hs', hJ _ _ hv⟩

end Rules

end Parser

/-! ## Tokens that are read -/

namespace ParseState.Before

variable {α : Type} {s : ParseState} {ts us vs : List TokenKind} {J : Arena → α → Prop}

section Eat

variable {kind : TokenKind} {op : Operator} {word : Keyword} {f : Bool → Parser α}

/-- The kind that stands first is eaten. -/
theorem eat (hs : s.Before (kind :: ts)) :
    (Parser.eat kind >>= f).Reads s us J ↔ (f true).Reads s.next us J := by
  rw [Parser.Reads, Parser.leaves_bind, Parser.leaves_eat, hs.kind?, List.head?_cons, if_pos rfl]
  exact Iff.rfl

/-- Another kind is left. -/
theorem eat_of_ne (hs : s.Before ts) (hne : ts.head? ≠ some kind) :
    (Parser.eat kind >>= f).Reads s us J ↔ (f false).Reads s us J := by
  rw [Parser.Reads, Parser.leaves_bind, Parser.leaves_eat, hs.kind?, if_neg hne]
  exact Iff.rfl

theorem eatOp (hs : s.Before (.operator op :: ts)) :
    (Parser.eatOp op >>= f).Reads s us J ↔ (f true).Reads s.next us J :=
  hs.eat

theorem eatOp_of_ne (hs : s.Before ts) (hne : ts.head? ≠ some (.operator op)) :
    (Parser.eatOp op >>= f).Reads s us J ↔ (f false).Reads s us J :=
  hs.eat_of_ne hne

theorem eatKeyword (hs : s.Before (.keyword word :: ts)) :
    (Parser.eatKeyword word >>= f).Reads s us J ↔ (f true).Reads s.next us J :=
  hs.eat

theorem eatKeyword_of_ne (hs : s.Before ts) (hne : ts.head? ≠ some (.keyword word)) :
    (Parser.eatKeyword word >>= f).Reads s us J ↔ (f false).Reads s us J :=
  hs.eat_of_ne hne

end Eat

/-- An operator that stands first is taken. -/
theorem expectOp {op : Operator} {f : Unit → Parser α} (hs : s.Before (.operator op :: ts)) :
    (Parser.expectOp op >>= f).Reads s us J ↔ (f ()).Reads s.next us J := by
  rw [Parser.Reads, Parser.leaves_bind, Parser.leaves_expectOp, hs.kind?, List.head?_cons,
    if_pos rfl]
  exact Iff.rfl

theorem expectKeyword {word : Keyword} {f : Unit → Parser α} (hs : s.Before (.keyword word :: ts)) :
    (Parser.expectKeyword word >>= f).Reads s us J ↔ (f ()).Reads s.next us J := by
  rw [Parser.Reads, Parser.leaves_bind, Parser.leaves_expectKeyword, hs.kind?, List.head?_cons,
    if_pos rfl]
  exact Iff.rfl

theorem expectName {text : String} {f : String → Parser α} (hs : s.Before (.name text :: ts)) :
    (Parser.expectName >>= f).Reads s us J ↔ (f text).Reads s.next us J := by
  rw [Parser.Reads, Parser.leaves_bind, Parser.leaves_expectName, hs.kind?]
  exact Iff.rfl

/-- Looking at the first token. -/
theorem current {f : Option TokenKind → Parser α} (hs : s.Before ts) :
    (Parser.current >>= f).Reads s us J ↔ (f ts.head?).Reads s us J := by
  rw [Parser.Reads, Parser.leaves_bind, Parser.leaves_current, hs.kind?]
  exact Iff.rfl

/-- Looking at the first two tokens. -/
theorem lookAhead {f : Option TokenKind × Option TokenKind → Parser α} (hs : s.Before ts) :
    (Parser.lookAhead >>= f).Reads s us J ↔ (f (ts.head?, ts.tail.head?)).Reads s us J := by
  have hsecond : s.next.kind? = ts.tail.head? := by
    rw [ParseState.kind?, next_rest, ← hs, List.head?_map.symm, List.map_tail]
  rw [Parser.Reads, Parser.leaves_bind, Parser.leaves_lookAhead, hs.kind?, hsecond]
  exact Iff.rfl

end ParseState.Before

namespace Parser

variable {α β σ : Type} {s : ParseState} {us : List TokenKind} {J : Arena → α → Prop}

theorem reads_advance {f : Unit → Parser α} :
    (advance >>= f).Reads s us J ↔ (f ()).Reads s.next us J :=
  Iff.rfl

theorem reads_line {f : ℕ → Parser α} : (line >>= f).Reads s us J ↔ (f s.here).Reads s us J :=
  Iff.rfl

/-! ## Repetition -/

/-- **A loop succeeds** if every step reads something and goes on, or ends
it. What it has before it and what it has made of it is told by `I`. -/
theorem reads_loop {step : σ → Parser (σ ⊕ α)} {I : σ → Arena → List TokenKind → Prop}
    {ts : List TokenKind}
    (hstep : ∀ v s' ts, s.arena.Extends s'.arena → s'.Before ts → I v s'.arena ts →
      (∃ ts', ts'.length < ts.length ∧
        (step v).Reads s' ts' fun b r => ∃ v', r = .inl v' ∧ I v' b ts') ∨
      (step v).Reads s' us fun b r => ∃ x, r = .inr x ∧ J b x)
    {start : σ} (hs : s.Before ts) (h : I start s.arena ts) :
    (Parser.loop step start).Reads s us J := by
  have hwithin : ∀ count v s' ts, s.arena.Extends s'.arena → s'.Before ts → I v s'.arena ts →
      ts.length < count → (loopWithin step count v).Reads s' us J := by
    intro count
    induction count with
    | zero => intro _ _ _ _ _ _ hlt; omega
    | succ count ih =>
      intro v s' ts hext hs' hv hlt
      rw [loopWithin]
      rcases hstep v s' ts hext hs' hv with ⟨ts', hlt', hnext⟩ | hend
      · refine hnext.bind fun r s₁ h₁ hgoes => ?_
        obtain ⟨v', hr, hv'⟩ := hgoes
        rw [hr]
        exact ih v' s₁ ts' (hext.trans h₁.extend) h₁.before hv' (by omega)
      · refine hend.bind fun r s₁ h₁ hends => ?_
        obtain ⟨x, hr, hx⟩ := hends
        rw [hr]
        exact .pure h₁.before hx
  exact hwithin _ start s ts (.refl _) hs h (by rw [hs.length]; exact Nat.lt_succ_self _)

/-- The rest of a list after its first item, with marks before the items. -/
theorem intercalate_cons {γ : Type} (mark : γ) (x : List γ) : ∀ xs : List (List γ),
    [mark].intercalate (x :: xs) = x ++ xs.flatMap (mark :: ·)
  | [] => by simp
  | y :: ys => by
    rw [List.intercalate_cons_cons, intercalate_cons mark y ys]
    simp

/-- **Lists with commas** are read item by item. What stands behind an item
is a comma or what stands behind the list. -/
theorem commaSeparated_reads {item : Parser α} {T : β → List TokenKind} {R : Arena → β → α → Prop}
    {P : List TokenKind → Prop} {n : ℕ} (hgrow : ∀ {b b' x v}, b.Extends b' → R b x v → R b' x v)
    (hus : P us) (hcomma : ∀ vs, P (.operator .comma :: vs))
    (hhead : us.head? ≠ some (.operator .comma)) {xs : List β} (hne : xs ≠ [])
    (hitem : ∀ x ∈ xs, ∀ {s vs}, P vs → s.Before (T x ++ vs) → s.rest.length ≤ n →
      item.Reads s vs fun b v => R b x v)
    (h : s.Before (Wording.listed (xs.map T) ++ us)) (hn : s.rest.length ≤ n) :
    (Parser.commaSeparated item).Reads s us fun b vs => List.Forall₂ (R b) xs vs := by
  obtain ⟨x, xs, rfl⟩ := List.exists_cons_of_ne_nil hne
  rw [List.forall_mem_cons] at hitem
  rw [Wording.listed, List.map_cons, intercalate_cons, List.append_assoc] at h
  have hnext (todo : List β) : P ((todo.map T).flatMap (.operator .comma :: ·) ++ us) := by
    cases todo with
    | nil => exact hus
    | cons y todo => exact hcomma _
  rw [Parser.commaSeparated]
  refine (hitem.1 (hnext xs) h hn).bind fun v s₁ h₁ hv => ?_
  have hlength := (h.length_le h₁.before).trans hn
  rw [h₁.before.length] at hlength
  -- the items that were read, and those with a comma before them
  refine reads_loop (I := fun vs b ts => ∃ done todo, x :: xs = done ++ todo ∧ todo ⊆ xs ∧
    List.Forall₂ (R b) done vs ∧ ts = (todo.map T).flatMap (.operator .comma :: ·) ++ us ∧
    ts.length ≤ n) ?_ h₁.before ⟨[x], xs, rfl, List.Subset.refl _, .cons hv .nil, rfl, hlength⟩
  rintro vs s' _ - hs' ⟨done, todo, hxs, htodo, hdone, rfl, hn'⟩
  cases todo with
  | nil =>
    refine .inr ?_
    rw [List.append_nil] at hxs
    rw [hs'.eatOp_of_ne (by simpa using hhead)]
    exact .pure hs' ⟨_, rfl, hxs ▸ hdone⟩
  | cons y todo =>
    refine .inl ⟨(todo.map T).flatMap (.operator .comma :: ·) ++ us, ?_, ?_⟩
    · simp only [List.map_cons, List.flatMap_cons, List.length_append, List.length_cons]
      omega
    obtain ⟨hy, htodo⟩ := List.cons_subset.1 htodo
    rw [List.map_cons, List.flatMap_cons, List.cons_append, List.cons_append, List.append_assoc] at hs' hn'
    have hlength := hs'.length_next
    rw [← hs'.length] at hn'
    rw [hs'.eatOp, if_pos rfl]
    refine (hitem.2 y hy (hnext todo) hs'.next (by omega)).bind fun v s'' h'' hv => ?_
    have hlength' := hs'.next.length_le h''.before
    refine .pure h''.before ⟨_, rfl, done ++ [y], todo, by simp [hxs], htodo, ?_, rfl, ?_⟩
    · exact List.rel_append (hdone.imp fun _ _ => hgrow h''.extend) (.cons hv .nil)
    · rw [← h''.before.length]
      omega

end Parser

end LuaSugar
