import Mathlib
import LuaSugar.Proofs.Parser.Outcome
import LuaSugar.Proofs.Parser.Parts
/-!
# Where parsers find what they make

A parser that stands at some place among the tokens goes on from there, and
what it makes is written between that place and the one where it stands
then. Proved along the grammar, this gives every part of a parsed chunk its
place (`parse_laid`).

What a parser holds so far may have tokens before and behind it that belong
to no part; an expression begins where its parser stands and ends where that
stops.
-/

namespace LuaSugar

namespace ParseState

variable (tokens : List Token)

/-- The tokens to come are those from some place on. -/
structure Stands (p : ℕ) (s : ParseState) : Prop where
  rest : s.rest = tokens.drop p
  endLine : s.endLine = (tokens.getLast?.map Token.line).getD 1

/-- On the way from one place to another these parts were found. -/
structure Wrote (a : Arena) (parts : List Part) (p q : ℕ) (s : ParseState) : Prop where
  stands : s.Stands tokens q
  extend : a.Extends s.arena
  laid : LaidAll tokens s.arena parts p q

/-- From one place to another there is an expression. -/
structure Spans (a : Arena) (x : ExprId) (p q : ℕ) (s : ParseState) : Prop where
  stands : s.Stands tokens q
  extend : a.Extends s.arena
  laid : Laid tokens s.arena (.expr x) p q

variable {tokens : List Token} {a : Arena} {s s' : ParseState} {parts parts' : List Part}
variable {x : ExprId} {p m q : ℕ}

/-! ## Going on -/

/-- One token further is one place further. -/
theorem Stands.next (h : s.Stands tokens p) : s.next.Stands tokens (p + 1) :=
  ⟨by rw [next_rest, h.rest, List.tail_drop], h.endLine⟩

theorem Stands.kind? (h : s.Stands tokens p) : s.kind? = kindAt tokens p := by
  rw [ParseState.kind?, kindAt, h.rest, List.head?_drop]

/-- The line of a state is that of the token at its place. -/
theorem Stands.here (h : s.Stands tokens p) : s.here = lineAt tokens p := by
  rw [ParseState.here, lineAt, ← List.head?_drop, ← h.rest]
  cases s.rest with
  | nil => exact h.endLine
  | cons t rest => rfl

/-- Where a state stands, nothing is written yet. -/
theorem Stands.wrote (h : s.Stands tokens p) : s.Wrote tokens s.arena [] p p :=
  ⟨h, .refl _, .nil le_rfl⟩

/-- A token that belongs to no part may stand behind the parts. -/
theorem Wrote.next (h : s.Wrote tokens a parts p q) : s.next.Wrote tokens a parts p (q + 1) :=
  ⟨h.stands.next, h.extend, h.laid.widen le_rfl (Nat.le_succ q)⟩

/-- What is written ends no earlier than it begins. -/
theorem Wrote.le (h : s.Wrote tokens a parts p q) : p ≤ q := h.laid.le

theorem Wrote.from (h : s.Wrote tokens a parts p q) (hle : m ≤ p) : s.Wrote tokens a parts m q :=
  ⟨h.stands, h.extend, h.laid.widen hle le_rfl⟩

/-- **Parts behind parts**, the later ones read from where the earlier ones end. -/
theorem Wrote.append (h : s.Wrote tokens a parts p m) (h' : s'.Wrote tokens s.arena parts' m q) :
    s'.Wrote tokens a (parts ++ parts') p q :=
  ⟨h'.stands, h.extend.trans h'.extend, (h.laid.mono h'.extend).append h'.laid⟩

/-- An expression that is spanned is one part. -/
theorem Spans.wrote (h : s.Spans tokens a x p q) : s.Wrote tokens a [.expr x] p q :=
  ⟨h.stands, h.extend, h.laid.all⟩

/-- Tokens that are left out at the start of the rest. -/
theorem Stands.dropWhile (h : s.Stands tokens p) (f : Token → Bool) :
    ∃ q, p ≤ q ∧ ({ s with rest := s.rest.dropWhile f } : ParseState).Stands tokens q := by
  obtain ⟨before, hbefore⟩ := s.rest.dropWhile_suffix (p := f)
  have hdrop : s.rest.dropWhile f = s.rest.drop before.length := by
    conv_rhs => rw [← hbefore, List.drop_left]
  refine ⟨p + before.length, Nat.le_add_right _ _, hdrop.trans ?_, h.endLine⟩
  rw [h.rest, List.drop_drop]

/-! ## New nodes -/

/-- **A new node** spans what was found for it. -/
theorem Wrote.alloc {e : Expr} (h : s.Wrote tokens a e.parts p q) (he : e.isSpelled = false) :
    ({ s with arena := (s.arena.alloc e).2 } : ParseState).Spans tokens a (s.arena.alloc e).1 p q := by
  have hext := Arena.extends_alloc s.arena e
  refine ⟨⟨h.stands.rest, h.stands.endLine⟩, h.extend.trans hext,
    .node (Arena.size_lt_alloc s.arena e) ?_ ?_⟩
  · rwa [Arena.alloc_fst, Arena.get_alloc_self]
  · rw [Arena.alloc_fst, Arena.get_alloc_self]
    exact h.laid.mono hext

/-- A node that is spelled by one token. -/
theorem Stands.alloc (h : s.Stands tokens p) {e : Expr} (he : ∀ {a' x}, x.index < a'.size →
    a'.get x = e → Laid tokens a' (.expr x) p (p + 1)) :
    ({ s.next with arena := (s.next.arena.alloc e).2 } : ParseState).Spans tokens s.arena
      (s.next.arena.alloc e).1 p (p + 1) :=
  ⟨⟨h.next.rest, h.next.endLine⟩, Arena.extends_alloc s.arena e,
    he (Arena.size_lt_alloc s.arena e) (Arena.get_alloc_self s.arena e)⟩

end ParseState

namespace Table

variable (t : Table) (key value : ExprId)

/-- A positional entry is one part more. -/
theorem parts_pushPositional : (t.pushPositional value).parts = t.parts ++ [.expr value] := by
  simp [parts, pushPositional]

/-- A keyed entry is two. -/
theorem parts_pushKeyed : (t.pushKeyed key value).parts = t.parts ++ [.key key, .expr value] := by
  simp [parts, pushKeyed]

end Table

/-- The recursive parsers keep to it. -/
structure Grammar.Lays (tokens : List Token) (g : Grammar) : Prop where
  expression : ∀ n {s p}, s.Stands tokens p →
    Parser.Leaves True (g.expression n) (fun i s' => ∃ q, s'.Spans tokens s.arena i p q) s
  assignment : ∀ {s p}, s.Stands tokens p →
    Parser.Leaves True g.assignment (fun i s' => ∃ q, s'.Spans tokens s.arena i p q) s
  element : ∀ {s p}, s.Stands tokens p → Parser.Leaves True g.element
    (fun e s' => ∃ q, s'.Wrote tokens s.arena (Expr.atom (.element e)).parts p q) s
  block : ∀ stop {s p}, s.Stands tokens p → Parser.Leaves True (g.block stop)
    (fun block s' => ∃ q, s'.Wrote tokens s.arena [.list block] p q) s
  ifArm : ∀ line {s p}, s.Stands tokens p → Parser.Leaves True (g.ifArm line)
    (fun arm s' => ∃ q, s'.Wrote tokens s.arena arm.parts p q) s

namespace Grammar.Lays

open LuaSugar.Parser LuaSugar.ParseState

variable {tokens : List Token} {g : Grammar} {s s₀ : ParseState} {p q : ℕ} {a : Arena}
variable {parts : List Part}

/-! ## Expressions -/

/-- A name that is read has a place, which belongs to no part. -/
theorem name (h : s.Wrote tokens a parts p q) {Q : String → ParseState → Prop}
    (hQ : ∀ text, s.next.Wrote tokens a parts p (q + 1) → Q text s.next) :
    Leaves True expectName Q s := by
  rw [leaves_expectName]
  split
  · exact hQ _ h.next
  · trivial

/-- Names are no parts; they are read behind what is written. -/
theorem commaSeparatedNames (h : s.Wrote tokens a parts p q) : Leaves True (commaSeparated expectName)
    (fun _ s' => ∃ q', s'.Wrote tokens a parts p q') s := by
  refine (Leaves.commaSeparated (I := fun _ s' => ∃ q', s'.Wrote tokens a parts p q')
    (fun _ s' ⟨q', hs'⟩ => name hs' fun _ hnext => ⟨_, hnext⟩) (fun _ _ ⟨q', hs'⟩ => ⟨_, hs'.next⟩)
    ⟨q, h⟩).mono fun _ _ hs' => hs'.2

/-- Neither are parameters. -/
theorem parameters (opening closing : Operator) (h : s.Wrote tokens a parts p q) :
    Leaves True (Parser.parameters opening closing)
      (fun _ s' => ∃ q', s'.Wrote tokens a parts p q') s := by
  unfold Parser.parameters
  simp only [leaves_bind, leaves_expectOp, leaves_eatOp, if_true_right]
  intro _
  split
  · exact ⟨_, h.next.next⟩
  refine Leaves.loop (I := fun _ s' => ∃ q', s'.Wrote tokens a parts p q') ?_ ⟨_, h.next⟩
  rintro names s' ⟨q', hs'⟩
  simp only [leaves_bind, leaves_eatOp]
  split
  · simp only [if_true, leaves_bind, leaves_expectOp, leaves_pure, if_true_right]
    exact fun _ => ⟨_, hs'.next.next⟩
  simp only [Bool.false_eq_true, if_false, leaves_bind]
  refine name hs' fun text hnext => ?_
  simp only [leaves_bind, leaves_eatOp]
  split
  · exact ⟨_, hnext.next⟩
  simp only [Bool.false_eq_true, if_false, leaves_bind, leaves_expectOp, leaves_pure,
    if_true_right]
  exact fun _ => ⟨_, hnext.next⟩

/-- Nor the path of a function. -/
theorem functionPath (h : s.Wrote tokens a parts p q) : Leaves True Grammar.functionPath
    (fun _ s' => ∃ q', s'.Wrote tokens a parts p q') s := by
  unfold Grammar.functionPath
  rw [leaves_bind]
  refine name h fun first hnext => ?_
  refine Leaves.loop (I := fun _ s' => ∃ q', s'.Wrote tokens a parts p q') ?_ ⟨_, hnext⟩
  rintro segments s₁ ⟨q₁, h₁⟩
  simp only [leaves_bind, leaves_eatOp]
  split
  · simp only [if_true, leaves_bind]
    exact name h₁.next fun _ hnext => ⟨_, hnext⟩
  simp only [Bool.false_eq_true, if_false, leaves_bind, leaves_eatOp]
  split
  · simp only [if_true, leaves_bind]
    exact name h₁.next fun _ hnext => ⟨_, hnext⟩
  · exact ⟨_, h₁⟩

/-- Expressions that were found one behind the other; an only one begins
where the parser stood. -/
def Lists (tokens : List Token) (a : Arena) (p : ℕ) (xs : List ExprId) (s : ParseState) : Prop :=
  ∃ q, s.Wrote tokens a (xs.map .expr) p q ∧
    ∀ x, xs = [x] → ∃ n ≤ q, Laid tokens s.arena (.expr x) p n

/-- **Expressions between commas** are parts in their order. -/
theorem commaSeparatedIds {item : Parser ExprId} (hitem : ∀ {s p}, s.Stands tokens p →
      Leaves True item (fun i s' => ∃ q, s'.Spans tokens s.arena i p q) s) (h : s.Stands tokens p) :
    Leaves True (commaSeparated item) (Lists tokens s.arena p) s := by
  refine (Leaves.commaSeparated_of_first (I := fun xs s' => xs ≠ [] ∧ Lists tokens s.arena p xs s')
    ?_ fun xs s₁ ⟨hne, q₁, h₁, _⟩ => ?_).mono fun _ _ hs' => hs'.2.2
  · refine (hitem h).mono fun x s₁ ⟨q, h₁⟩ => ⟨List.cons_ne_nil _ _, q, h₁.wrote, fun y hy => ?_⟩
    rw [← List.singleton_inj.1 hy]
    exact ⟨q, le_rfl, h₁.laid⟩
  · refine (hitem h₁.stands.next).mono fun x s₂ ⟨q₂, h₂⟩ => ⟨by simp, q₂, ?_, fun y hy => ?_⟩
    · rw [List.map_append]
      exact h₁.next.append h₂.wrote
    -- a further item makes the list longer than one
    · have hlength := congrArg List.length hy
      have hpos := List.length_pos_iff.2 hne
      simp only [List.length_append, List.length_singleton] at hlength
      omega

/-- Arguments of a call. Nothing but parentheses stands before an only
one. -/
def Args (tokens : List Token) (a : Arena) (p : ℕ) (xs : List ExprId) (s : ParseState) : Prop :=
  ∃ q, s.Wrote tokens a (xs.map .expr) p q ∧ ∀ x, xs = [x] → ∃ m n, p ≤ m ∧ Parens tokens p m ∧
    n ≤ q ∧ Laid tokens s.arena (.expr x) m n

/-- An argument without parentheses. -/
theorem args_single {x : ExprId} (h : s.Spans tokens a x p q) : Args tokens a p [x] s := by
  refine ⟨q, h.wrote, fun y hy => ?_⟩
  rw [← List.singleton_inj.1 hy]
  exact ⟨p, q, le_rfl, fun k hk hk' => absurd hk' (by omega), le_rfl, h.laid⟩

/-- **A call** spans what is called and its arguments. -/
theorem spans_call {x : ExprId} {xs : List ExprId} {m : ℕ} (h : s₀.Spans tokens a x p m)
    (h' : Args tokens s₀.arena m xs s) :
    ∃ q, ({ s with arena := (s.arena.alloc (.call x xs)).2 } : ParseState).Spans tokens a
      (s.arena.alloc (.call x xs)).1 p q := by
  obtain ⟨q, hxs, hsingle⟩ := h'
  have hall : s.Wrote tokens a (Expr.call x xs).parts p q := h.wrote.append hxs
  refine ⟨q, ?_⟩
  match xs, hsingle, hall with
  | [], _, hall => exact hall.alloc rfl
  | _ :: _ :: _, _, hall => exact hall.alloc rfl
  | [arg], hsingle, hall =>
    obtain ⟨m', n, hle, hparens, hn, harg⟩ := hsingle arg rfl
    have hext := Arena.extends_alloc s.arena (.call x [arg])
    refine ⟨⟨hall.stands.rest, hall.stands.endLine⟩, hall.extend.trans hext,
      .call (Arena.size_lt_alloc _ _) (Arena.get_alloc_self _ _) ?_ hle hparens (harg.mono hext) hn⟩
    exact h.laid.mono (hxs.extend.trans hext)

/-- The key of a named entry is allocated behind its value. -/
theorem pushNamed {t : Table} {key : String} {value : ExprId} {k m : ℕ}
    (h : s₀.Wrote tokens a t.parts p k) (hkey : kindAt tokens k = some (.name key)) (hk : k + 1 ≤ m)
    (h' : s.Spans tokens s₀.arena value m q) : Leaves True (build (Build.pushNamed t key value))
      (fun t' s' => s'.Wrote tokens a t'.parts p q) s := by
  rw [leaves_build]
  have hext := Arena.extends_alloc s.arena (.ofText key)
  refine ⟨⟨h'.stands.rest, h'.stands.endLine⟩, h.extend.trans (h'.extend.trans hext), ?_⟩
  rw [show ((Build.pushNamed t key value).run s.arena).1.parts =
    t.parts ++ [.key (s.arena.alloc (.ofText key)).1, .expr value] from Table.parts_pushKeyed t _ value]
  refine (h.laid.mono (h'.extend.trans hext)).append (.cons le_rfl (.named (Arena.size_lt_alloc _ _)
    (Arena.get_alloc_self _ _) hkey) ?_)
  exact .cons hk (h'.laid.mono hext) (.nil le_rfl)

variable (hg : g.Lays tokens)
include hg

/-- An expression behind other parts. -/
theorem readExpression (n : ℕ) (h : s.Wrote tokens a parts p q) : Leaves True (g.expression n)
    (fun i s' => ∃ q', s'.Wrote tokens a (parts ++ [.expr i]) p q') s :=
  (hg.expression n h.stands).mono fun _ _ ⟨_, h'⟩ => ⟨_, h.append h'.wrote⟩

/-- A list behind other parts. -/
theorem readBlock (stop : BlockEnd) (h : s.Wrote tokens a parts p q) : Leaves True (g.block stop)
    (fun block s' => ∃ q', s'.Wrote tokens a (parts ++ [.list block]) p q') s :=
  (hg.block stop h.stands).mono fun _ _ ⟨_, h'⟩ => ⟨_, h.append h'⟩

/-- A function has its body for a part. -/
theorem funcBody (h : s.Wrote tokens a parts p q) : Leaves True g.funcBody
    (fun func s' => ∃ q', s'.Wrote tokens a (parts ++ [.list func.body]) p q') s := by
  unfold Grammar.funcBody
  rw [leaves_bind]
  refine (parameters _ _ h).mono ?_
  rintro params s₁ ⟨q₁, h₁⟩
  rw [leaves_bind]
  exact readBlock hg _ h₁

theorem expressionList (h : s.Stands tokens p) :
    Leaves True g.expressionList (Lists tokens s.arena p) s :=
  commaSeparatedIds (fun h => hg.expression 1 h) h

theorem readExpressions (h : s.Wrote tokens a parts p q) : Leaves True g.expressionList
    (fun xs s' => ∃ q', s'.Wrote tokens a (parts ++ xs.map .expr) p q') s :=
  (expressionList hg h.stands).mono fun _ _ ⟨_, h', _⟩ => ⟨_, h.append h'⟩

/-- Arguments may be none, and then only parentheses are written. -/
theorem parenthesizedArguments (h : s.Stands tokens p) :
    Leaves True g.parenthesizedArguments (Args tokens s.arena p) s := by
  unfold Grammar.parenthesizedArguments
  simp only [leaves_bind, leaves_expectOp, leaves_eatOp, if_true_right]
  intro hopen
  split
  · exact ⟨_, h.wrote.next.next, by simp⟩
  simp only [Bool.false_eq_true, if_false, leaves_bind]
  refine (expressionList hg h.next).mono ?_
  rintro xs s₁ ⟨q₁, h₁, hsingle⟩
  simp only [leaves_bind, leaves_expectOp, leaves_pure, if_true_right]
  refine fun _ => ⟨_, h₁.next.from (Nat.le_succ p), fun x hx => ?_⟩
  obtain ⟨n, hn, hlaid⟩ := hsingle x hx
  refine ⟨p + 1, n, Nat.le_succ p, fun k hk hk' => .inl ?_, hn.trans (Nat.le_succ _), hlaid⟩
  rw [show k = p by omega, ← h.kind?, hopen]

/-- **An entry is written behind those before it**; its key, if it has one, before its value. -/
theorem tableEntry {t : Table} (h : s.Wrote tokens a t.parts p q) : Leaves True (g.tableEntry t)
    (fun t' s' => ∃ q', s'.Wrote tokens a t'.parts p q') s := by
  unfold Grammar.tableEntry
  rw [leaves_bind, leaves_lookAhead]
  split
  · rename_i key hkind
    have hkey : kindAt tokens q = some (.name key) := h.stands.kind? ▸ (Prod.mk.inj hkind).1
    simp only [leaves_bind, leaves_advance]
    refine (hg.expression 1 h.stands.next.next).mono ?_
    rintro value s₁ ⟨q₁, h₁⟩
    exact (pushNamed h hkey (Nat.le_succ _) h₁).mono fun _ _ h' => ⟨_, h'⟩
  · rw [leaves_bind, leaves_advance, leaves_bind]
    refine (hg.expression 1 h.stands.next).mono ?_
    rintro key s₁ ⟨q₁, h₁⟩
    simp only [leaves_bind, leaves_expectOp, if_true_right]
    intro _ _
    have hkey : s₁.Wrote tokens a (t.parts ++ [.key key]) p q₁ :=
      h.next.append ⟨h₁.stands, h₁.extend, (Laid.key h₁.laid).all⟩
    refine (readExpression hg 1 hkey.next.next).mono ?_
    rintro value s₂ ⟨q₂, h₂⟩
    refine ⟨q₂, ?_⟩
    rw [Table.parts_pushKeyed]
    simpa using h₂
  · rename_i key hkind
    have hkey : kindAt tokens (q + 1) = some (.name key) :=
      h.stands.next.kind? ▸ (Prod.mk.inj hkind).2
    simp only [leaves_bind, leaves_advance]
    refine (funcBody hg h.next.next.stands.wrote).mono ?_
    rintro func s₁ ⟨q₁, h₁⟩
    rw [leaves_bind, leaves_alloc]
    exact (pushNamed h.next hkey le_rfl (h₁.alloc rfl)).mono fun _ _ h' => ⟨_, h'⟩
  · rw [leaves_bind]
    refine (readExpression hg 1 h).mono ?_
    rintro value s₁ ⟨q₁, h₁⟩
    refine ⟨q₁, ?_⟩
    rwa [Table.parts_pushPositional]

/-- A table spans its braces. -/
theorem table (h : s.Stands tokens p) :
    Leaves True g.table (fun i s' => ∃ q, s'.Spans tokens s.arena i p q) s := by
  unfold Grammar.table
  simp only [leaves_bind, leaves_expectOp, if_true_right]
  intro _
  refine Leaves.mono (Leaves.loop
    (I := fun (t : Table) s' => ∃ q, s'.Wrote tokens s.arena t.parts p q)
    (Q := fun (t : Table) s' => ∃ q, s'.Wrote tokens s.arena t.parts p q) ?_
    ⟨_, h.wrote.next⟩) ?_ <;> rintro t s₁ ⟨q₁, h₁⟩
  · simp only [leaves_bind, leaves_eatOp]
    split
    · exact ⟨_, h₁.next⟩
    simp only [Bool.false_eq_true, if_false, leaves_bind]
    refine (tableEntry hg h₁).mono ?_
    rintro t' s₂ ⟨q₂, h₂⟩
    simp only [leaves_bind, leaves_eatOp]
    split
    · exact ⟨_, h₂.next⟩
    simp only [Bool.false_eq_true, if_false, leaves_bind, leaves_eatOp]
    split
    · exact ⟨_, h₂.next⟩
    simp only [leaves_expectOp, if_true_right]
    exact fun _ => ⟨_, h₂.next⟩
  · rw [leaves_build]
    exact ⟨q₁, h₁.alloc (e := .atom (.table t)) rfl⟩

/-- A function literal from its body. -/
theorem function (h : s.Wrote tokens a [] p q) : Leaves True (do alloc (.atom (.func (← g.funcBody))))
    (fun i s' => ∃ q', s'.Spans tokens a i p q') s := by
  rw [leaves_bind]
  refine (funcBody hg h).mono ?_
  rintro func s₁ ⟨q₁, h₁⟩
  rw [leaves_alloc]
  exact ⟨q₁, h₁.alloc rfl⟩

/-- The statement that a short function consists of begins with it. -/
theorem lambda (h : s.Stands tokens p) : Leaves True (g.lambda (lineAt tokens p))
    (fun i s' => ∃ q, s'.Spans tokens s.arena i p q) s := by
  unfold Grammar.lambda
  rw [leaves_bind]
  refine (parameters _ _ h.wrote).mono ?_
  rintro params s₁ ⟨q₁, h₁⟩
  rw [leaves_bind]
  refine (readExpression hg 1 h₁).mono ?_
  rintro value s₂ ⟨q₂, h₂⟩
  rw [leaves_alloc]
  have hlist : LaidList tokens s₂.arena [.ret [value] (lineAt tokens p)] p q₂ :=
    .cons le_rfl rfl h₂.laid (.nil le_rfl)
  exact ⟨q₂, ParseState.Wrote.alloc ⟨h₂.stands, h₂.extend, (Laid.list hlist).all⟩ rfl⟩

/-- A property without a value is `true` at the place of its name. -/
theorem propertyValue (property : String) (h : s.Wrote tokens a parts p q) :
    Leaves True (g.propertyValue property)
      (fun i s' => ∃ q', s'.Wrote tokens a (parts ++ [.expr i]) p q') s := by
  unfold Grammar.propertyValue
  simp only [leaves_bind, leaves_eatOp]
  split
  · simp only [if_true, leaves_bind, leaves_current]
    split
    · rename_i bytes hkind
      simp only [leaves_bind, leaves_advance, leaves_build]
      exact ⟨_, h.next.append (h.next.stands.alloc fun hx hget =>
        .string hx hget (h.next.stands.kind? ▸ hkind)).wrote⟩
    · simp only [leaves_bind, leaves_advance]
      refine (readExpression hg 1 h.next.next).mono ?_
      rintro value s₁ ⟨q₁, h₁⟩
      simp only [leaves_bind, leaves_expectOp, leaves_pure, if_true_right]
      exact fun _ => ⟨_, h₁.next⟩
    · trivial
  · exact ⟨_, h.append (h.stands.wrote.alloc (e := .atom (.boolean true)) rfl).wrote⟩

/-- Properties are written by their values, in order. -/
theorem properties (h : s.Wrote tokens a [] p q) : Leaves True g.properties
    (fun found s' => ∃ q', s'.Wrote tokens a ((found.map (·.2)).map .expr) p q') s := by
  unfold Grammar.properties
  refine Leaves.loop (I := fun (found : List (String × ExprId)) s' =>
    ∃ q', s'.Wrote tokens a ((found.map (·.2)).map .expr) p q') ?_ ⟨q, h⟩
  rintro found s₁ ⟨q₁, h₁⟩
  rw [leaves_bind, leaves_current]
  split
  · rename_i property _
    simp only [leaves_bind, leaves_advance]
    refine (propertyValue hg property h₁.next).mono ?_
    rintro value s₂ ⟨q₂, h₂⟩
    refine ⟨q₂, ?_⟩
    simpa using h₂
  · exact ⟨q₁, h₁⟩

/-- Children are written in order up to the second tag. -/
theorem elementChildren (name : String) (h : s.Wrote tokens a parts p q) :
    Leaves True (g.elementChildren name)
      (fun found s' => ∃ q', s'.Wrote tokens a (parts ++ found.map .expr) p q') s := by
  unfold Grammar.elementChildren
  refine Leaves.loop (I := fun (found : List ExprId) s' =>
    ∃ q', s'.Wrote tokens a (parts ++ found.map .expr) p q') ?_ ⟨q, by simpa using h⟩
  rintro found s₁ ⟨q₁, h₁⟩
  rw [leaves_bind, leaves_lookAhead]
  split
  · simp only [leaves_bind, leaves_advance]
    refine (readExpression hg 1 h₁.next).mono ?_
    rintro child s₂ ⟨q₂, h₂⟩
    simp only [leaves_bind, leaves_expectOp, leaves_pure, if_true_right]
    exact fun _ => ⟨_, by simpa using h₂.next⟩
  · exact ⟨_, h₁.next.next⟩
  · rw [leaves_bind]
    refine (hg.element h₁.stands).mono ?_
    rintro child s₂ ⟨q₂, h₂⟩
    rw [leaves_bind, leaves_alloc]
    exact ⟨q₂, by simpa using h₁.append (h₂.alloc rfl).wrote⟩
  · trivial

/-- An element is written from one tag to the other. -/
theorem elementLiteral (h : s.Stands tokens p) : Leaves True g.elementLiteral
    (fun e s' => ∃ q, s'.Wrote tokens s.arena (Expr.atom (.element e)).parts p q) s := by
  unfold Grammar.elementLiteral
  simp only [leaves_bind, leaves_expectOp, if_true_right]
  intro _
  refine name h.wrote.next fun text hname => ?_
  rw [leaves_bind]
  refine (properties hg hname).mono ?_
  rintro found s₁ ⟨q₁, h₁⟩
  simp only [leaves_bind, leaves_eatOp]
  split
  · simp only [if_true, leaves_bind, leaves_expectOp, leaves_pure, if_true_right]
    exact fun _ => ⟨_, by simpa [Expr.parts, Expr.children] using h₁.next.next⟩
  simp only [Bool.false_eq_true, if_false, leaves_bind, leaves_expectOp, if_true_right]
  intro _
  refine (elementChildren hg text h₁.next).mono ?_
  rintro children s₂ ⟨q₂, h₂⟩
  rw [leaves_bind]
  refine name h₂ fun closing hclosing => ?_
  simp only [leaves_bind, leaves_ite, leaves_fail, leaves_pure, leaves_expectOp, if_true_right]
  split
  · trivial
  exact fun _ => ⟨_, by simpa [Expr.parts, Expr.children] using hclosing.next⟩

/-- **What an expression begins with** spans the tokens that it is read from,
parentheses included. -/
theorem primary (h : s.Stands tokens p) :
    Leaves True g.primary (fun i s' => ∃ q, s'.Spans tokens s.arena i p q) s := by
  -- an atom that is not spelled out has no place to account for
  have hplain {atom : Atom} (hspelled : (Expr.atom atom).isSpelled = false)
      (hparts : (Expr.atom atom).parts = []) : Leaves True (readAtom atom)
        (fun i s' => ∃ q, s'.Spans tokens s.arena i p q) s := by
    unfold readAtom
    rw [leaves_bind, leaves_advance, leaves_alloc]
    exact ⟨_, ParseState.Wrote.alloc (hparts ▸ h.wrote.next) hspelled⟩
  unfold Grammar.primary
  rw [leaves_bind, leaves_line, leaves_bind, leaves_current]
  split
  · rename_i hopen
    simp only [leaves_bind, leaves_advance]
    refine (hg.assignment h.next).mono ?_
    rintro i s₁ ⟨q₁, h₁⟩
    simp only [leaves_bind, leaves_expectOp, leaves_pure, if_true_right]
    exact fun hclose => ⟨_, h₁.stands.next, h₁.extend,
      .parens (h.kind? ▸ hopen) h₁.laid (h₁.stands.kind? ▸ hclose)⟩
  · exact table hg h
  · rw [leaves_bind]
    refine (elementLiteral hg h).mono ?_
    rintro e s₁ ⟨q₁, h₁⟩
    rw [leaves_alloc]
    exact ⟨q₁, h₁.alloc rfl⟩
  · rw [h.here]
    exact lambda hg h
  · exact hplain rfl rfl
  · exact hplain rfl rfl
  · rename_i bytes hkind
    exact ⟨_, h.alloc fun hx hget => .string hx hget (h.kind? ▸ hkind)⟩
  · rename_i text hkind
    exact ⟨_, h.alloc fun hx hget => .name hx hget (h.kind? ▸ hkind)⟩
  · exact hplain rfl rfl
  · exact hplain rfl rfl
  · exact hplain rfl rfl
  · rw [leaves_bind, leaves_advance]
    exact function hg h.wrote.next
  · trivial
  · trivial
  · trivial

/-- A string or a table may be an argument without parentheses. -/
theorem callArguments (h : s.Stands tokens p) :
    Leaves True g.callArguments (Args tokens s.arena p) s := by
  unfold Grammar.callArguments
  rw [leaves_bind, leaves_current]
  split
  · rename_i bytes hkind
    exact args_single (h.alloc fun hx hget => .string hx hget (h.kind? ▸ hkind))
  · rw [leaves_bind]
    exact (table hg h).mono fun i s₁ ⟨q₁, h₁⟩ => args_single h₁
  · exact parenthesizedArguments hg h

/-- A suffix goes on with the expression before it. -/
theorem suffix (calls : Bool) {x : ExprId} (h : s.Spans tokens a x p q) :
    Leaves True (g.suffix calls x) (fun r s' => match r with
      | .inl i | .inr i => ∃ q', s'.Spans tokens a i p q') s := by
  unfold Grammar.suffix
  rw [leaves_bind, leaves_current]
  split
  · simp only [leaves_bind, leaves_advance]
    refine name h.wrote.next fun text hname => ?_
    rw [leaves_map, leaves_build]
    exact ⟨_, hname.alloc (e := .arith (.member x text)) rfl⟩
  · simp only [leaves_bind, leaves_advance]
    refine (readExpression hg 1 h.wrote.next).mono ?_
    rintro key s₁ ⟨q₁, h₁⟩
    simp only [leaves_bind, leaves_expectOp, leaves_map, leaves_build, if_true_right]
    exact fun _ => ⟨_, h₁.next.alloc (e := .arith (.subscript x key)) rfl⟩
  · simp only [leaves_bind, leaves_advance]
    refine name h.wrote.next fun text hname => ?_
    rw [leaves_bind]
    refine (callArguments hg hname.stands).mono ?_
    rintro args s₁ ⟨q₁, h₁, _⟩
    rw [leaves_map, leaves_alloc]
    exact ⟨_, (hname.append h₁).alloc (e := .arith (.call x (some text) args)) rfl⟩
  -- the three ways to write the arguments of a plain call
  iterate 3
    rw [leaves_bind]
    refine (callArguments hg h.stands).mono fun args s₁ h₁ => ?_
    rw [leaves_map, leaves_build]
    exact spans_call h h₁
  exact ⟨q, h⟩

/-- Each suffix spans what it is put behind. -/
theorem suffixed (calls : Bool) (h : s.Stands tokens p) :
    Leaves True (g.suffixed calls) (fun i s' => ∃ q, s'.Spans tokens s.arena i p q) s := by
  unfold Grammar.suffixed
  rw [leaves_bind]
  refine (primary hg h).mono fun head s₁ h₁ => ?_
  refine Leaves.loop (I := fun i s' => ∃ q, s'.Spans tokens s.arena i p q)
    (fun i s₂ ⟨q₂, h₂⟩ => ?_) h₁
  refine (suffix hg calls h₂).mono fun r s₃ h₃ => ?_
  cases r with
  | inl i => exact h₃
  | inr i => exact h₃

/-- A prefix operator stands before its operand. -/
theorem unary (h : s.Stands tokens p) :
    Leaves True g.unary (fun i s' => ∃ q, s'.Spans tokens s.arena i p q) s := by
  unfold Grammar.unary
  rw [leaves_bind, leaves_current]
  split
  · split
    · rename_i op _ _ unaryOp _
      simp only [leaves_bind, leaves_advance]
      refine (readExpression hg _ h.wrote.next).mono ?_
      rintro operand s₁ ⟨q₁, h₁⟩
      rw [leaves_alloc]
      exact ⟨q₁, h₁.alloc (e := .arith (.unary unaryOp operand)) rfl⟩
    · exact suffixed hg true h
  · exact suffixed hg true h

/-- **Operations** span their operands. -/
theorem operation (minimum : ℕ) (h : s.Stands tokens p) :
    Leaves True (g.operation minimum) (fun i s' => ∃ q, s'.Spans tokens s.arena i p q) s := by
  unfold Grammar.operation
  rw [leaves_bind]
  refine (unary hg h).mono fun left s₁ h₁ => ?_
  refine Leaves.loop (I := fun i s' => ∃ q, s'.Spans tokens s.arena i p q) ?_ h₁
  rintro i s₂ ⟨q₂, h₂⟩
  unfold Grammar.binaryStep
  rw [leaves_bind, leaves_current]
  split
  · rename_i binary op precedence _
    simp only [leaves_bind, leaves_advance]
    refine (readExpression hg _ h₂.wrote.next).mono ?_
    rintro right s₃ ⟨q₃, h₃⟩
    rw [leaves_map, leaves_build]
    exact ⟨q₃, h₃.alloc (e := .arith (.binary binary i right)) rfl⟩
  · exact ⟨q₂, h₂⟩

/-- A target stands before its value. -/
theorem assignmentOrExpression (h : s.Stands tokens p) :
    Leaves True g.assignmentOrExpression (fun i s' => ∃ q, s'.Spans tokens s.arena i p q) s := by
  unfold Grammar.assignmentOrExpression
  rw [leaves_bind]
  refine (operation hg 1 h).mono ?_
  rintro target s₁ ⟨q₁, h₁⟩
  rw [leaves_bind, leaves_current]
  split
  · rename_i op _
    simp only [leaves_bind, leaves_advance]
    refine (hg.assignment h₁.stands.next).mono ?_
    rintro value s₂ ⟨q₂, h₂⟩
    rw [leaves_alloc]
    exact ⟨q₂, (h₁.wrote.next.append h₂.wrote).alloc (e := .arith (.assign op target value)) rfl⟩
  · exact ⟨q₁, h₁⟩

/-! ## Statements -/

/-- An arm is written with its condition, its list and what comes behind. -/
theorem conditionalArm (line : ℕ) (h : s.Stands tokens p) : Leaves True (g.conditionalArm line)
    (fun arm s' => ∃ q, s'.Wrote tokens s.arena arm.parts p q) s := by
  unfold Grammar.conditionalArm
  rw [leaves_bind]
  refine (operation hg 1 h).mono ?_
  rintro condition s₁ ⟨q₁, h₁⟩
  simp only [leaves_bind, leaves_expectKeyword, if_true_right]
  refine fun _ => (readBlock hg _ h₁.wrote.next).mono ?_
  rintro body s₂ ⟨q₂, h₂⟩
  simp only [leaves_bind, leaves_line, leaves_eatKeyword]
  split
  · simp only [if_true, leaves_bind]
    refine (hg.ifArm _ h₂.stands.next).mono ?_
    rintro arm s₃ ⟨q₃, h₃⟩
    exact ⟨q₃, h₂.next.append h₃⟩
  simp only [Bool.false_eq_true, if_false, leaves_bind, leaves_eatKeyword]
  split
  · simp only [if_true, leaves_bind]
    exact readBlock hg _ h₂.next
  · simp only [leaves_expectKeyword, if_true_right]
    exact fun _ => ⟨_, h₂.next⟩

/-- Both kinds of loop: bounds or iterators, and then the list. -/
theorem forLoop (h : s.Wrote tokens a [] p q) : Leaves True g.forLoop
    (fun kind s' => ∃ q', s'.Wrote tokens a kind.parts p q') s := by
  unfold Grammar.forLoop
  rw [leaves_bind]
  refine name h fun var hvar => ?_
  simp only [leaves_bind, leaves_eatOp]
  split
  · simp only [if_true, leaves_bind]
    refine (readExpression hg 1 hvar.next).mono ?_
    rintro start s₁ ⟨q₁, h₁⟩
    simp only [leaves_bind, leaves_expectOp, if_true_right]
    intro _
    refine (readExpression hg 1 h₁.next).mono ?_
    rintro limit s₂ ⟨q₂, h₂⟩
    -- with a step or without one, the body comes next
    have hbody (step : Option ExprId) {s₃ : ParseState} {q₃ : ℕ} (h₃ : s₃.Wrote tokens a
        (.expr start :: .expr limit :: step.toList.map .expr) p q₃) : Leaves True (do
          expectKeyword .do_
          let body ← g.block .endWord
          pure (StmtKind.forNumeric var start limit step body))
        (fun kind s' => ∃ q', s'.Wrote tokens a kind.parts p q') s₃ := by
      simp only [leaves_bind, leaves_expectKeyword, if_true_right]
      exact fun _ => readBlock hg _ h₃.next
    simp only [leaves_bind, leaves_eatOp]
    split
    · simp only [if_true]
      rw [leaves_bind, leaves_map]
      refine (readExpression hg 1 h₂.next).mono ?_
      rintro step s₃ ⟨q₃, h₃⟩
      exact hbody (some step) h₃
    · simp only [Bool.false_eq_true, if_false]
      rw [leaves_bind, leaves_pure]
      exact hbody none h₂
  · simp only [Bool.false_eq_true, if_false]
    -- with more names or without, the iterators come next
    have hbody (more : List String) {s₁ : ParseState} {q₁ : ℕ} (h₁ : s₁.Wrote tokens a [] p q₁) :
        Leaves True (do
          expectKeyword .in_
          let iterators ← g.expressionList
          expectKeyword .do_
          let body ← g.block .endWord
          pure (StmtKind.forGeneric (var :: more) iterators body))
        (fun kind s' => ∃ q', s'.Wrote tokens a kind.parts p q') s₁ := by
      simp only [leaves_bind, leaves_expectKeyword, if_true_right]
      refine fun _ => (readExpressions hg h₁.next).mono ?_
      rintro iterators s₂ ⟨q₂, h₂⟩
      simp only [leaves_bind, leaves_expectKeyword, if_true_right]
      exact fun _ => readBlock hg _ h₂.next
    rw [leaves_bind, leaves_eatOp]
    split
    · simp only [if_true]
      rw [leaves_bind]
      refine (commaSeparatedNames hvar.next).mono ?_
      rintro more s₁ ⟨q₁, h₁⟩
      exact hbody more h₁
    · simp only [Bool.false_eq_true, if_false]
      rw [leaves_bind, leaves_pure]
      exact hbody [] hvar

/-- The values behind the names, if there are any. -/
theorem localDeclaration (h : s.Wrote tokens a [] p q) : Leaves True g.localDeclaration
    (fun kind s' => ∃ q', s'.Wrote tokens a kind.parts p q') s := by
  unfold Grammar.localDeclaration
  simp only [leaves_bind, leaves_eatKeyword]
  split
  · simp only [if_true, leaves_bind]
    refine name h.next fun text hname => ?_
    rw [leaves_bind]
    exact funcBody hg hname
  simp only [Bool.false_eq_true, if_false, leaves_bind]
  refine (commaSeparatedNames h).mono ?_
  rintro names s₁ ⟨q₁, h₁⟩
  rw [leaves_bind, leaves_eatOp]
  split
  · simp only [if_true]
    rw [leaves_bind]
    exact readExpressions hg h₁.next
  · exact ⟨q₁, h₁⟩

/-- The source of an import is its only part. -/
theorem importStatement (h : s.Wrote tokens a [] p q) : Leaves True g.importStatement
    (fun kind s' => ∃ q', s'.Wrote tokens a kind.parts p q') s := by
  have hsource (binding : ImportBinding) {s₁ : ParseState} {q₁ : ℕ}
      (h₁ : s₁.Wrote tokens a [] p q₁) : Leaves True (do
        if !(← eat (.name "from")) then unexpected .fromWord
        let source ← g.expression 1
        pure (StmtKind.importFrom binding source))
      (fun kind s' => ∃ q', s'.Wrote tokens a kind.parts p q') s₁ := by
    simp only [leaves_bind, leaves_eat]
    split
    · simp only [Bool.not_true, Bool.false_eq_true, if_false]
      rw [leaves_bind]
      exact readExpression hg 1 h₁.next
    · simp
  unfold Grammar.importStatement
  rw [leaves_bind, leaves_eatOp]
  split
  · simp only [if_true]
    rw [leaves_bind]
    refine (commaSeparatedNames h.next).mono ?_
    rintro names s₁ ⟨q₁, h₁⟩
    rw [leaves_bind, leaves_expectOp, if_true_right]
    exact fun _ => hsource (.named names) h₁.next
  · simp only [Bool.false_eq_true, if_false]
    rw [leaves_bind, leaves_map]
    exact name h fun text hname => hsource (.default text) hname

omit hg in
/-- Looking at a target reads nothing. -/
theorem checkAssignable (target : ExprId) {Q : Unit → ParseState → Prop} (hQ : Q () s) :
    Leaves True (Grammar.checkAssignable target) Q s := by
  unfold Grammar.checkAssignable
  rw [leaves_bind, leaves_get]
  split
  all_goals first
    | exact hQ
    | trivial

omit hg in
theorem checkAllAssignable : ∀ (targets : List ExprId),
    Leaves True (targets.forM Grammar.checkAssignable) (fun _ s' => s' = s) s
  | [] => rfl
  | t :: targets => by
    rw [List.forM, leaves_bind]
    exact checkAssignable t (checkAllAssignable targets)

/-- A call, or targets and values. -/
theorem expressionStatement (h : s.Stands tokens p) : Leaves True g.expressionStatement
    (fun kind s' => ∃ q, s'.Wrote tokens s.arena kind.parts p q) s := by
  unfold Grammar.expressionStatement
  rw [leaves_bind]
  refine (suffixed hg true h).mono ?_
  rintro first s₁ ⟨q₁, h₁⟩
  rw [leaves_bind, leaves_current, leaves_ite]
  split
  -- one target or a list of them: what is said of the sign is the same
  · have hassign (more : List ExprId) {s₂ : ParseState} {q₂ : ℕ}
        (h₂ : s₂.Wrote tokens s.arena ((first :: more).map .expr) p q₂) : Leaves True (do
          (first :: more).forM Grammar.checkAssignable
          expectOp .assign
          let values ← g.expressionList
          pure (StmtKind.assign (first :: more) values))
        (fun kind s' => ∃ q, s'.Wrote tokens s.arena kind.parts p q) s₂ := by
      rw [leaves_bind]
      refine (checkAllAssignable (first :: more)).mono fun _ s₂' hs => ?_
      subst hs
      rw [leaves_bind, leaves_expectOp, if_true_right]
      intro _
      rw [leaves_bind]
      exact readExpressions hg h₂.next
    rw [leaves_bind, leaves_eatOp]
    split
    · simp only [if_true]
      rw [leaves_bind]
      refine (commaSeparatedIds (fun h => suffixed hg true h) h₁.stands.next).mono
        fun more s₂ ⟨q₂, h₂, _⟩ => hassign more (h₁.wrote.next.append h₂)
    · exact hassign [] h₁.wrote
  · split
    · rename_i op _
      rw [leaves_bind]
      refine checkAssignable first ?_
      rw [leaves_bind, leaves_advance, leaves_bind]
      exact readExpression hg 1 h₁.wrote.next
    · rw [leaves_bind, leaves_get]
      split
      · exact ⟨q₁, h₁.wrote⟩
      · trivial

theorem intrinsicStatement (h : s.Wrote tokens a [] p q) : Leaves True g.intrinsicStatement
    (fun kind s' => ∃ q', s'.Wrote tokens a kind.parts p q') s := by
  unfold Grammar.intrinsicStatement
  rw [leaves_bind]
  refine (suffixed hg false h.stands).mono ?_
  rintro expr s₁ ⟨q₁, h₁⟩
  rw [leaves_bind, leaves_current]
  split
  · rw [leaves_map]
    refine (parenthesizedArguments hg h₁.stands).mono ?_
    rintro args s₂ ⟨q₂, h₂, _⟩
    exact ⟨q₂, h.append (h₁.wrote.append h₂)⟩
  · exact ⟨q₁, h.append h₁.wrote⟩

/-- **A statement of a word** has its parts behind the word. -/
theorem keywordStatement (line : ℕ) (word : Keyword) (h : s.Stands tokens p) :
    Leaves True (g.keywordStatement line word)
      (fun kind s' => ∃ q, s'.Wrote tokens s.arena kind.parts p q) s := by
  have h := h.wrote
  unfold Grammar.keywordStatement
  split
  · rw [leaves_bind, leaves_advance, leaves_map]
    exact readBlock hg _ h.next
  · exact ⟨_, h.next⟩
  · rw [leaves_bind, leaves_advance, leaves_map]
    exact (hg.ifArm line h.next.stands).mono fun arm s₁ ⟨q₁, h₁⟩ => ⟨q₁, h.next.append h₁⟩
  · rw [leaves_bind, leaves_advance, leaves_bind, leaves_current, leaves_ite]
    split
    · exact ⟨_, h.next⟩
    · rw [leaves_map]
      exact readExpressions hg h.next
  · rw [leaves_bind, leaves_advance, leaves_bind]
    refine (readExpression hg 1 h.next).mono ?_
    rintro condition s₁ ⟨q₁, h₁⟩
    rw [leaves_bind, leaves_expectKeyword, if_true_right]
    intro _
    rw [leaves_map]
    exact readBlock hg _ h₁.next
  · rw [leaves_bind, leaves_advance, leaves_bind]
    refine (readBlock hg _ h.next).mono ?_
    rintro body s₁ ⟨q₁, h₁⟩
    rw [leaves_map]
    exact readExpression hg 1 h₁
  · rw [leaves_bind, leaves_advance]
    exact forLoop hg h.next
  · rw [leaves_bind, leaves_advance, leaves_bind]
    refine (functionPath h.next).mono ?_
    rintro path s₁ ⟨q₁, h₁⟩
    rw [leaves_map]
    exact funcBody hg h₁
  · rw [leaves_bind, leaves_advance]
    exact localDeclaration hg h.next
  · rw [leaves_bind, leaves_advance]
    exact importStatement hg h.next
  · trivial

/-- **A statement** has the line of the token it begins with. -/
theorem statement (h : s.Stands tokens p) : Leaves True g.statement (fun stmt s' =>
    ∃ q, s'.Wrote tokens s.arena stmt.kind.parts p q ∧ stmt.line = lineAt tokens p) s := by
  unfold Grammar.statement
  rw [leaves_bind, leaves_line, leaves_bind, leaves_current]
  split
  · rename_i word _
    rw [leaves_bind]
    exact (keywordStatement hg _ word h).mono fun _ _ ⟨q, h'⟩ => ⟨q, h', h.here⟩
  · rw [leaves_bind, leaves_advance, leaves_bind]
    exact (intrinsicStatement hg h.wrote.next).mono fun _ _ ⟨q, h'⟩ => ⟨q, h', h.here⟩
  · rw [leaves_bind]
    exact (expressionStatement hg h).mono fun _ _ ⟨q, h'⟩ => ⟨q, h', h.here⟩

omit hg in
/-- The end of a list is no part of it. -/
theorem blockEnds (stop : BlockEnd) (h : s.Wrote tokens a parts p q) :
    Leaves True (Grammar.blockEnds stop) (fun _ s' => ∃ q', s'.Wrote tokens a parts p q') s := by
  unfold Grammar.blockEnds
  rw [leaves_bind, leaves_current]
  split
  all_goals first
    | exact ⟨_, h⟩
    | exact ⟨_, h.next⟩
    | trivial

/-- **Statements are written one behind the other**, each on the line of its first token. -/
theorem statements (stop : BlockEnd) (h : s.Stands tokens p) : Leaves True (g.statements stop)
    (fun block s' => ∃ q, s'.Wrote tokens s.arena [.list block] p q) s := by
  unfold Grammar.statements
  -- the statements so far lie in order, up to where the state is
  refine Leaves.loop (I := fun found s' => ∃ q, s'.Stands tokens q ∧ s.arena.Extends s'.arena ∧
    LaidList tokens s'.arena found p q) ?_ ⟨p, h, .refl _, .nil le_rfl⟩
  rintro found s₁ ⟨q₁, h₁, hext₁, hfound⟩
  rw [leaves_bind]
  -- semicolons are no statements, and belong to none
  have hskip : Leaves True Grammar.skipSemicolons
      (fun _ s₂ => s₂.arena = s₁.arena ∧ ∃ q₂, q₁ ≤ q₂ ∧ s₂.Stands tokens q₂) s₁ :=
    ⟨rfl, h₁.dropWhile _⟩
  refine hskip.mono ?_
  rintro _ s₂ ⟨harena, q₂, hle₂, h₂⟩
  rw [← harena] at hfound hext₁
  rw [leaves_bind]
  refine (blockEnds stop h₂.wrote).mono ?_
  rintro ends s₃ ⟨q₃, h₃⟩
  have hext₃ := hext₁.trans h₃.extend
  have hle₃ := hle₂.trans h₃.le
  have hfound := hfound.mono h₃.extend
  rw [leaves_ite]
  split
  · exact ⟨q₃, h₃.stands, hext₃, .cons le_rfl (.list hfound) (.nil hle₃)⟩
  · rw [leaves_bind]
    refine (statement hg h₃.stands).mono ?_
    rintro stmt s₄ ⟨q₄, h₄, hline⟩
    exact ⟨q₄, h₄.stands, hext₃.trans h₄.extend,
      (hfound.mono h₄.extend).append (.cons hle₃ hline h₄.laid (.nil le_rfl))⟩

/-! ## Chunks -/

omit hg in
/-- **Every unrolling of the grammar** keeps to it. -/
theorem level : ∀ n, (Grammar.level n).Lays tokens
  | 0 => ⟨fun _ _ _ _ => trivial, fun _ => trivial, fun _ => trivial, fun _ _ _ _ => trivial,
      fun _ _ _ _ => trivial⟩
  | n + 1 =>
    have hg := level n
    ⟨fun minimum => operation hg minimum, assignmentOrExpression hg, elementLiteral hg,
      fun stop => statements hg stop, fun line => conditionalArm hg line⟩

end Grammar.Lays

/-- **What `parse` makes** has its place among the tokens, trivia aside. -/
theorem parse_laid {tokens : List Token} {c : Chunk} (h : parse tokens = .ok c) :
    ∃ q, LaidAll (significant tokens) c.arena [.list c.body] 0 q := by
  have hstart : ParseState.Stands (significant tokens) 0 ⟨significant tokens,
      ((significant tokens).getLast?.map Token.line).getD 1, .empty⟩ := ⟨rfl, rfl⟩
  simp only [parse] at h
  split at h
  · rename_i body s' hrun
    obtain ⟨q, hbody⟩ :=
      (Grammar.Lays.statements (Grammar.Lays.level _) .tokens hstart).of_ok hrun
    obtain rfl := Except.ok.inj h
    exact ⟨q, hbody.laid⟩
  · cases h

end LuaSugar
