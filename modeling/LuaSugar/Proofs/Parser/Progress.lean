import Mathlib
import LuaSugar.Proofs.Parser.Laid
/-!
# Parsers go on

A parser takes tokens from the front and puts none back, so what is left is
always an end of what was there. `Advances` counts what a parser has taken
at least, by its answer, and bounds from below how many tokens were there
if it stalled. Both follow the text of a parser: what the first of two has
taken is no longer asked of the second.

The recursion of the grammar is never used up, since each of its parsers
takes a token before it calls on the others (`Grammar.Advancing`), and no
loop is cut off, since a step that goes on takes a token (`Iterates`). So
`parse` ends with a chunk or with a fault of the tokens
(`readText_goes_on`). The states are arbitrary throughout: their tokens need
not be those of a text.
-/

namespace LuaSugar

/-! ## Places behind a state -/

/-- From one state to another only tokens in front were taken, at least so
many. -/
structure ParseState.Takes (s : ParseState) (count : ℕ) (s' : ParseState) : Prop where
  rest : s'.rest <:+ s.rest
  taken : s'.rest.length + count ≤ s.rest.length
  endLine : s'.endLine = s.endLine

/-- A fault on the way from a state: it is found before a token that is
still to come or behind the last one, and it is a stall only if there were
so many tokens. -/
structure ParseState.Faults (s : ParseState) (bound : ℕ) (e : ParseError) : Prop where
  line : ∃ s', s.Takes 0 s' ∧ e.line = s'.here
  stalls : e.fault = .stalled → bound ≤ s.rest.length

namespace ParseState

variable {s s' s'' : ParseState} {m n bound bound' : ℕ} {e : ParseError}

/-- Nothing is taken where nothing of the tokens changes. -/
theorem Takes.of_rest (hrest : s'.rest = s.rest) (hline : s'.endLine = s.endLine) : s.Takes 0 s' :=
  ⟨hrest ▸ List.suffix_rfl, by rw [hrest]; exact le_rfl, hline⟩

theorem Takes.refl (s : ParseState) : s.Takes 0 s := .of_rest rfl rfl

theorem Takes.trans (h : s.Takes m s') (h' : s'.Takes n s'') : s.Takes (m + n) s'' := by
  refine ⟨h'.rest.trans h.rest, ?_, h'.endLine.trans h.endLine⟩
  have := h.taken
  have := h'.taken
  omega

/-- What takes so many tokens takes fewer at least. -/
theorem Takes.mono (h : s.Takes m s') (hle : n ≤ m) : s.Takes n s' :=
  ⟨h.rest, (Nat.add_le_add_left hle _).trans h.taken, h.endLine⟩

theorem Takes.next (s : ParseState) : s.Takes 0 s.next :=
  ⟨List.tail_suffix _, by simp, rfl⟩

/-- A token that is there is taken. -/
theorem Takes.one (h : 0 < s.rest.length) : s.Takes 1 s.next := by
  refine ⟨List.tail_suffix _, ?_, rfl⟩
  rw [next_rest, List.length_tail]
  omega

/-- A fault that is a stall with so many tokens is one with fewer. -/
theorem Faults.mono (h : s.Faults bound e) (hle : bound' ≤ bound) : s.Faults bound' e :=
  ⟨h.line, fun hstalled => hle.trans (h.stalls hstalled)⟩

/-- A fault behind what was taken. -/
theorem Faults.behind (h : s'.Faults bound e) (htakes : s.Takes n s') :
    s.Faults (bound + n) e := by
  refine ⟨?_, fun hstalled => ?_⟩
  · obtain ⟨s'', htakes', hline⟩ := h.line
    exact ⟨s'', (htakes.trans htakes').mono (Nat.zero_le _), hline⟩
  · have := h.stalls hstalled
    have := htakes.taken
    omega

/-- A fault where the state is. -/
theorem Faults.here {fault : ParseFault} (hfault : fault ≠ .stalled) :
    s.Faults bound ⟨s.here, fault⟩ :=
  ⟨⟨s, .refl s, rfl⟩, fun hstalled => absurd hstalled hfault⟩

end ParseState

/-! ## What a parser takes -/

namespace Parser

variable {α β σ : Type} {m m' bound bound' : ℕ} {goes goes' : α → Bool}

/-- With so many tokens to come, `p` takes tokens in front only, and one at
least if it answers a `v` with `goes v`; a fault is a stall only if there
were `bound` tokens. -/
def Advances (m bound : ℕ) (goes : α → Bool) (p : Parser α) : Prop :=
  ∀ s : ParseState, m ≤ s.rest.length → match p s with
    | .ok (v, s') => s.Takes (goes v).toNat s'
    | .error e => s.Faults bound e

/-- Each step of a loop that goes on takes a token. -/
def Iterates (bound : ℕ) (step : σ → Parser (σ ⊕ α)) : Prop :=
  ∀ v, Advances 0 bound Sum.isLeft (step v)

/-- How many tokens were seen by looking at one. -/
def ahead : Option TokenKind → ℕ
  | none => 0
  | some _ => 1

/-- A token that was seen is there. -/
theorem ahead_le (s : ParseState) : ahead s.kind? ≤ s.rest.length := by
  unfold ParseState.kind?
  cases s.rest <;> simp [ahead]

/-- So are two. -/
theorem ahead_add_le (s : ParseState) : ahead s.kind? + ahead s.next.kind? ≤ s.rest.length := by
  unfold ParseState.kind?
  rw [ParseState.next_rest]
  match s.rest with
  | [] => simp [ahead]
  | [_] => simp [ahead]
  | _ :: _ :: _ => simp [ahead]

/-- One step of a loop, and the others behind it. -/
theorem loopWithin_succ (step : σ → Parser (σ ⊕ α)) (count : ℕ) (v : σ) (s : ParseState) :
    loopWithin step (count + 1) v s = (step v s).bind fun r => match r with
      | (.inl next, s') => loopWithin step count next s'
      | (.inr result, s') => .ok (result, s') := by
  rw [loopWithin]
  show (step v s >>= _) = _
  cases step v s with
  | error e => rfl
  | ok r => obtain ⟨_ | _, _⟩ := r <;> rfl

namespace Advances

/-- An advance may be said more weakly: with more tokens to come, fewer before
a stall, fewer answers that go on. -/
theorem mono {p : Parser α} (h : Advances m bound goes p) (hm : m ≤ m') (hbound : bound' ≤ bound)
    (hgoes : ∀ v, (goes' v).toNat ≤ (goes v).toNat) : Advances m' bound' goes' p := by
  intro s hs
  have := h s (hm.trans hs)
  cases hp : p s with
  | error e =>
    rw [hp] at this
    exact this.mono hbound
  | ok r =>
    rw [hp] at this
    exact this.mono (hgoes r.1)

/-- With as many tokens to come as one likes. -/
theorem seen {p : Parser α} (h : Advances 0 bound goes p) : Advances m bound goes p :=
  h.mono (Nat.zero_le _) le_rfl fun _ => le_rfl

/-- Where a token was taken before, less is asked. -/
theorem behind {p : Parser α} (h : Advances 0 bound goes p) (hle : bound' ≤ bound) :
    Advances m bound' (fun _ => false) p :=
  h.mono (Nat.zero_le _) hle fun _ => Nat.zero_le _

/-- **One after the other.** If the first has taken a token, the second need
not, and one token less is asked of its stalls. -/
theorem bind {p : Parser β} {f : β → Parser α} {first : β → Bool} (hp : Advances m bound first p)
    (hf : ∀ v, Advances 0 (bound - (first v).toNat) (fun w => goes w && !first v) (f v)) :
    Advances m bound goes (p >>= f) := by
  intro s hs
  have hfirst := hp s hs
  show match (p s >>= fun x => f x.1 x.2) with
    | .ok (v, s') => s.Takes (goes v).toNat s'
    | .error e => s.Faults bound e
  cases hrun : p s with
  | error e =>
    rw [hrun] at hfirst
    exact hfirst
  | ok r =>
    obtain ⟨v, s₁⟩ := r
    rw [hrun] at hfirst
    have hsecond := hf v s₁ (Nat.zero_le _)
    show match f v s₁ with
      | .ok (v, s') => s.Takes (goes v).toNat s'
      | .error e => s.Faults bound e
    cases hrun' : f v s₁ with
    | error e =>
      rw [hrun'] at hsecond
      -- a stall behind what was taken
      exact (hsecond.behind hfirst).mono le_tsub_add
    | ok r' =>
      rw [hrun'] at hsecond
      refine (hfirst.trans hsecond).mono ?_
      dsimp only
      -- a token is owed once, whichever of the two takes it
      cases first v <;> cases goes r'.1 <;> decide

/-- The first takes a token. -/
theorem opens {p : Parser β} {f : β → Parser α} (hp : Advances m bound (fun _ => true) p)
    (hf : ∀ v, Advances 0 (bound - 1) (fun _ => false) (f v)) : Advances m bound goes (p >>= f) :=
  hp.bind fun v => (hf v).mono le_rfl le_rfl fun w => by simp

/-- Whatever the first takes. -/
theorem andThen {p : Parser β} {f : β → Parser α} {first : β → Bool}
    (hp : Advances m bound first p) (hf : ∀ v, Advances 0 bound goes (f v)) :
    Advances m bound goes (p >>= f) :=
  hp.bind fun v => (hf v).mono le_rfl (Nat.sub_le _ _) fun w => by cases first v <;> simp

/-- What is asked of the rest depends on whether a token was taken. -/
theorem orElse {p : Parser Bool} {f : Bool → Parser α} (hp : Advances m bound id p)
    (hyes : Advances 0 (bound - 1) (fun _ => false) (f true))
    (hno : Advances 0 bound goes (f false)) : Advances m bound goes (p >>= f) :=
  hp.bind fun taken => match taken with
    | true => hyes.mono le_rfl le_rfl fun w => by simp
    | false => hno.mono le_rfl le_rfl fun w => by simp

/-- A branch on whether a token was taken: behind it one less is needed before a stall. -/
theorem ifTaken {p : Parser Bool} {q r : Parser α} (hp : Advances m bound id p)
    (hq : Advances 0 (bound - 1) (fun _ => false) q) (hr : Advances 0 bound goes r) :
    Advances m bound goes (p >>= fun taken => if taken then q else r) :=
  hp.orElse hq hr

/-- Nothing more is asked where a token was taken. -/
theorem ifEither {p : Parser Bool} {q r : Parser α} (hp : Advances m bound id p)
    (hq : Advances 0 bound goes q) (hr : Advances 0 bound goes r) :
    Advances m bound goes (p >>= fun taken => if taken then q else r) :=
  hp.andThen fun taken => match taken with
    | true => hq
    | false => hr

/-- What is done to the answer takes no token. -/
theorem map {p : Parser β} {f : β → α} (h : Advances m bound (fun v => goes (f v)) p) :
    Advances m bound goes (f <$> p) := by
  intro s hs
  have := h s hs
  show match (p s).map (fun x => (f x.1, x.2)) with
    | .ok (v, s') => s.Takes (goes v).toNat s'
    | .error e => s.Faults bound e
  cases hp : p s with
  | error e => rwa [hp] at this
  | ok r => rwa [hp] at this

/-! ## Parsers that take nothing -/

/-- A refusal, which is no stall. -/
theorem fail {fault : ParseFault} (hfault : fault ≠ .stalled) :
    Advances m bound goes (Parser.fail fault) :=
  fun _ _ => .here hfault

/-- Nor is the one of a token that does not fit. -/
theorem unexpected (what : Expectation) : Advances m bound goes (Parser.unexpected what) :=
  fun _ _ => .here (by simp)

/-- A parser that answers and leaves the tokens alone. -/
theorem idle {p : Parser α} (hp : ∀ s, ∃ v s', p s = .ok (v, s') ∧ s'.rest = s.rest ∧
    s'.endLine = s.endLine) : Advances m bound (fun _ => false) p := by
  intro s _
  obtain ⟨v, s', hrun, hrest, hline⟩ := hp s
  rw [hrun]
  exact .of_rest hrest hline

/-- An answer without reading. -/
theorem pure {v : α} (hv : goes v = false) : Advances m bound goes (Pure.pure v : Parser α) := by
  intro s _
  show s.Takes (goes v).toNat s
  rw [hv]
  exact .refl s

/-- Reading the state takes no token. -/
theorem get : Advances m bound (fun _ => false) (MonadState.get : Parser ParseState) :=
  idle fun s => ⟨s, s, rfl, rfl, rfl⟩

/-- Nor does asking for the line. -/
theorem line : Advances m bound (fun _ => false) Parser.line := idle fun s => ⟨_, s, rfl, rfl, rfl⟩

/-- Nor does building. -/
theorem build (b : Build α) : Advances m bound (fun _ => false) (Parser.build b) :=
  idle fun _ => ⟨_, _, rfl, rfl, rfl⟩

theorem alloc (e : Expr) : Advances m bound (fun _ => false) (Parser.alloc e) := build _

/-! ## Looking and taking -/

/-- The rest may rely on what was seen. -/
theorem peek {f : Option TokenKind → Parser α}
    (hf : ∀ kind?, Advances (ahead kind?) bound goes (f kind?)) :
    Advances m bound goes (Parser.current >>= f) :=
  fun s _ => hf s.kind? s (ahead_le s)

theorem peekTwo {f : Option TokenKind × Option TokenKind → Parser α}
    (hf : ∀ first second, Advances (ahead first + ahead second) bound goes (f (first, second))) :
    Advances m bound goes (lookAhead >>= f) :=
  fun s _ => hf s.kind? s.next.kind? s (ahead_add_le s)

/-- A token that was seen is taken. -/
theorem advance : Advances (m + 1) bound (fun _ => true) Parser.advance :=
  fun _ hs => .one (Nat.zero_lt_of_lt hs)

/-- Whether or not there is a token to take. -/
theorem skip : Advances m bound (fun _ => false) Parser.advance := fun s _ => .next s

/-- A token is taken if it is the one asked for, and the answer says so. -/
theorem eat (kind : TokenKind) : Advances m bound id (Parser.eat kind) := by
  refine peek fun kind? => ?_
  cases hfound : kind? == some kind with
  | false => exact pure rfl
  | true =>
    obtain rfl := beq_iff_eq.1 hfound
    exact advance.opens fun _ => pure rfl

theorem eatOp (op : Operator) : Advances m bound id (Parser.eatOp op) := eat _

theorem eatKeyword (word : Keyword) : Advances m bound id (Parser.eatKeyword word) := eat _

/-- An operator that has to be there is taken. -/
theorem expectOp (op : Operator) : Advances m bound (fun _ => true) (Parser.expectOp op) :=
  (eatOp op).orElse (pure rfl) (unexpected _)

theorem expectKeyword (word : Keyword) :
    Advances m bound (fun _ => true) (Parser.expectKeyword word) :=
  (eatKeyword word).orElse (pure rfl) (unexpected _)

/-- So is a name. -/
theorem expectName : Advances m bound (fun _ => true) Parser.expectName := by
  refine peek fun kind? => ?_
  split
  · exact advance.opens fun _ => pure rfl
  · exact unexpected _

/-! ## Loops -/

/-- **A loop** whose steps take a token each if they go on is not cut off. -/
theorem loop {step : σ → Parser (σ ⊕ α)} (hstep : Iterates bound step) (start : σ) :
    Advances m bound (fun _ => false) (Parser.loop step start) := by
  -- on the steps that are allowed, of which there is one more than tokens
  have hwithin : ∀ count v (s : ParseState), s.rest.length < count →
      match loopWithin step count v s with
      | .ok (_, s') => s.Takes 0 s'
      | .error e => s.Faults bound e := by
    intro count
    induction count with
    | zero => exact fun _ _ hs => absurd hs (Nat.not_lt_zero _)
    | succ count ih =>
      intro v s hs
      have hfirst := hstep v s (Nat.zero_le _)
      rw [loopWithin_succ]
      cases hrun : step v s with
      | error e =>
        rw [hrun] at hfirst
        exact hfirst
      | ok r =>
        obtain ⟨next | result, s₁⟩ := r
        · rw [hrun] at hfirst
          have htaken : s.Takes 1 s₁ := hfirst
          have hrest := ih next s₁ (by have := htaken.taken; omega)
          show match loopWithin step count next s₁ with
            | .ok (_, s') => s.Takes 0 s'
            | .error e => s.Faults bound e
          cases hrun' : loopWithin step count next s₁ with
          | error e =>
            rw [hrun'] at hrest
            exact (hrest.behind htaken).mono (Nat.le_add_right _ _)
          | ok r' =>
            rw [hrun'] at hrest
            exact (htaken.trans hrest).mono (Nat.zero_le _)
        · rw [hrun] at hfirst
          exact hfirst
  exact fun s _ => hwithin _ start s (Nat.lt_succ_self _)

end Advances

end Parser

end LuaSugar
