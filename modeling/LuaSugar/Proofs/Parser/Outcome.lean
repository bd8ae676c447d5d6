import Mathlib
import LuaSugar.Parser
/-!
# What parsers leave

`Leaves E Q p s` says what holds of the answer of a parser and of the
state behind it, and of a failure that it implies `E`. With `True` for `E`
it is a property of successful runs, with `False` it also says that the
run succeeds. The rules below rewrite it along the text of a parser, so a
statement about a parser turns into one about the parsers it calls.
-/

namespace LuaSugar

/-- The state behind the next token. -/
def ParseState.next (s : ParseState) : ParseState := { s with rest := s.rest.tail }

/-- The kind of the next token. -/
def ParseState.kind? (s : ParseState) : Option TokenKind := s.rest.head?.map Token.kind

/-- The line of the next token. -/
def ParseState.here (s : ParseState) : Nat :=
  match s.rest with
  | token :: _ => token.line
  | [] => s.endLine

@[simp] theorem ParseState.next_arena (s : ParseState) : s.next.arena = s.arena := rfl

@[simp] theorem ParseState.next_rest (s : ParseState) : s.next.rest = s.rest.tail := rfl

namespace Parser

variable {α β σ : Type} {E : Prop} {s : ParseState}

/-- After `p` runs from `s`, `Q` holds of answer and state; a failure
implies `E`. -/
def Leaves (E : Prop) (p : Parser α) (Q : α → ParseState → Prop) (s : ParseState) : Prop :=
  match p s with
  | .ok (v, s') => Q v s'
  | .error _ => E

/-- What is left satisfies anything weaker as well. -/
theorem Leaves.mono {p : Parser α} {Q R : α → ParseState → Prop} (h : Leaves E p Q s)
    (hqr : ∀ v s', Q v s' → R v s') : Leaves E p R s := by
  unfold Leaves at *
  cases hp : p s with
  | error e => rwa [hp] at h
  | ok r =>
    rw [hp] at h
    exact hqr _ _ h

/-- What is said of all answers holds of one. -/
theorem Leaves.of_ok {p : Parser α} {Q : α → ParseState → Prop} (h : Leaves E p Q s) {v : α}
    {s' : ParseState} (hp : p s = .ok (v, s')) : Q v s' := by
  unfold Leaves at h
  rwa [hp] at h

/-! ## One step -/

section Rules

variable (Q : α → ParseState → Prop)

/-- A value without reading. -/
@[simp] theorem leaves_pure (v : α) : Leaves E (pure v) Q s ↔ Q v s := Iff.rfl

/-- **One after the other**: a rule of its own for every primitive, so that
`simp` takes a parser apart. -/
@[simp] theorem leaves_bind (p : Parser β) (f : β → Parser α) :
    Leaves E (p >>= f) Q s ↔ Leaves E p (fun v => Leaves E (f v) Q) s := by
  unfold Leaves
  show (match (p s >>= fun x => f x.1 x.2) with | .ok (v, s') => Q v s' | .error _ => E) ↔ _
  cases p s with
  | error e => exact Iff.rfl
  | ok r => exact Iff.rfl

@[simp] theorem leaves_map (p : Parser β) (f : β → α) :
    Leaves E (f <$> p) Q s ↔ Leaves E p (fun v => Q (f v)) s := by
  rw [map_eq_pure_bind, leaves_bind]
  rfl

/-- A failure leaves what a failure may leave. -/
@[simp] theorem leaves_fail (fault : ParseFault) : Leaves E (fail fault) Q s ↔ E := Iff.rfl

@[simp] theorem leaves_unexpected (what : Expectation) : Leaves E (unexpected what) Q s ↔ E :=
  Iff.rfl

/-- The branch that is taken decides. -/
@[simp] theorem leaves_ite (c : Prop) [Decidable c] (p q : Parser α) :
    Leaves E (if c then p else q) Q s ↔ if c then Leaves E p Q s else Leaves E q Q s := by
  by_cases h : c
  · rw [if_pos h, if_pos h]
  · rw [if_neg h, if_neg h]

end Rules

@[simp] theorem leaves_get (Q : ParseState → ParseState → Prop) : Leaves E get Q s ↔ Q s s :=
  Iff.rfl

/-- Looking at a token takes none. -/
@[simp] theorem leaves_current (Q : Option TokenKind → ParseState → Prop) :
    Leaves E current Q s ↔ Q s.kind? s :=
  Iff.rfl

@[simp] theorem leaves_lookAhead (Q : Option TokenKind × Option TokenKind → ParseState → Prop) :
    Leaves E lookAhead Q s ↔ Q (s.kind?, s.next.kind?) s :=
  Iff.rfl

/-- One token is taken, if there is one. -/
@[simp] theorem leaves_advance (Q : Unit → ParseState → Prop) :
    Leaves E advance Q s ↔ Q () s.next :=
  Iff.rfl

@[simp] theorem leaves_line (Q : Nat → ParseState → Prop) :
    Leaves E line Q s ↔ Q s.here s :=
  Iff.rfl

/-- A token of the kind is taken, and any other is left. -/
@[simp] theorem leaves_eat (kind : TokenKind) (Q : Bool → ParseState → Prop) :
    Leaves E (eat kind) Q s ↔ if s.kind? = some kind then Q true s.next else Q false s := by
  unfold eat
  by_cases h : s.kind? = some kind
  · simp [h]
  · simp [h, beq_eq_false_iff_ne.2 h]

@[simp] theorem leaves_eatOp (op : Operator) (Q : Bool → ParseState → Prop) :
    Leaves E (eatOp op) Q s ↔
      if s.kind? = some (.operator op) then Q true s.next else Q false s :=
  leaves_eat _ Q

@[simp] theorem leaves_eatKeyword (word : Keyword) (Q : Bool → ParseState → Prop) :
    Leaves E (eatKeyword word) Q s ↔
      if s.kind? = some (.keyword word) then Q true s.next else Q false s :=
  leaves_eat _ Q

/-- An operator that has to be there. -/
@[simp] theorem leaves_expectOp (op : Operator) (Q : Unit → ParseState → Prop) :
    Leaves E (expectOp op) Q s ↔ if s.kind? = some (.operator op) then Q () s.next else E := by
  unfold expectOp
  by_cases h : s.kind? = some (.operator op) <;> simp [h]

@[simp] theorem leaves_expectKeyword (word : Keyword) (Q : Unit → ParseState → Prop) :
    Leaves E (expectKeyword word) Q s ↔
      if s.kind? = some (.keyword word) then Q () s.next else E := by
  unfold expectKeyword
  by_cases h : s.kind? = some (.keyword word) <;> simp [h]

/-- A name that has to be there is what is answered. -/
@[simp] theorem leaves_expectName (Q : String → ParseState → Prop) :
    Leaves E expectName Q s ↔ match s.kind? with
      | some (.name text) => Q text s.next
      | _ => E := by
  unfold expectName
  rw [leaves_bind, leaves_current]
  split <;> simp_all

/-- Building changes the arena and takes no token. -/
@[simp] theorem leaves_build (b : Build α) (Q : α → ParseState → Prop) :
    Leaves E (build b) Q s ↔ Q (b.run s.arena).1 { s with arena := (b.run s.arena).2 } :=
  Iff.rfl

@[simp] theorem leaves_alloc (e : Expr) (Q : ExprId → ParseState → Prop) :
    Leaves E (alloc e) Q s ↔ Q (s.arena.alloc e).1 { s with arena := (s.arena.alloc e).2 } :=
  Iff.rfl

/-! ## Repetition -/

/-- A loop whose steps keep an invariant, and whose results satisfy `Q`. -/
theorem Leaves.loop {step : σ → Parser (σ ⊕ α)} {I : σ → ParseState → Prop}
    {Q : α → ParseState → Prop}
    (hstep : ∀ v s, I v s → Leaves True (step v) (fun r s' => match r with
      | .inl v' => I v' s'
      | .inr a => Q a s') s) {start : σ} (h : I start s) :
    Leaves True (Parser.loop step start) Q s := by
  have hwithin : ∀ count v s, I v s → Leaves True (loopWithin step count v) Q s := by
    intro count
    induction count with
    | zero => intro v s _; exact trivial
    | succ count ih =>
      intro v s hv
      rw [loopWithin, leaves_bind]
      refine (hstep v s hv).mono fun r s' hr => ?_
      cases r with
      | inl v' => exact ih v' s' hr
      | inr a => exact hr
  exact hwithin _ start s h

/-- A list with commas between its items: an invariant that the first item
begins and each further one keeps. -/
theorem Leaves.commaSeparated_of_first {item : Parser α} {I : List α → ParseState → Prop}
    (hfirst : Leaves True item (fun v => I [v]) s)
    (hmore : ∀ items s, I items s → Leaves True item (fun v => I (items ++ [v])) s.next) :
    Leaves True (Parser.commaSeparated item) (fun items s' => items ≠ [] ∧ I items s') s := by
  rw [Parser.commaSeparated, leaves_bind]
  refine hfirst.mono fun first s₁ h₁ => ?_
  refine Leaves.loop (I := fun items s' => items ≠ [] ∧ I items s') ?_
    ⟨List.cons_ne_nil _ _, h₁⟩
  rintro items s' ⟨hne, hs'⟩
  rw [leaves_bind, leaves_eatOp]
  by_cases hc : s'.kind? = some (.operator .comma)
  · simp only [hc, if_true, leaves_bind]
    exact (hmore items s' hs').mono fun v s'' hv => ⟨by simp, hv⟩
  · simp only [hc, if_false]
    exact ⟨hne, hs'⟩

/-- As `commaSeparated_of_first`, if every item keeps the invariant of the
list before it. -/
theorem Leaves.commaSeparated {item : Parser α} {I : List α → ParseState → Prop}
    (hitem : ∀ items s, I items s → Leaves True item (fun v => I (items ++ [v])) s)
    (hnext : ∀ items s, I items s → I items s.next) (h : I [] s) :
    Leaves True (Parser.commaSeparated item) (fun items s' => items ≠ [] ∧ I items s') s :=
  Leaves.commaSeparated_of_first (hitem [] s h) fun items s' hs' => hitem items s'.next (hnext items s' hs')

end Parser

end LuaSugar
