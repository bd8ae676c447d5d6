import Mathlib
import LuaSugar.Proofs.Parser.Outcome
import LuaSugar.Proofs.Pass.Sound
/-!
# Grammars that check more

The grammar looks at what is assigned to in a statement, but not at what
is assigned to in parentheses; and it goes on behind a `return`. A
**strict** grammar checks these as well. It reads exactly those chunks the
grammar reads that pass the checks, and reads them alike: the grammar
only ever adds nodes, and what a check looks at stays as it is to the end.
-/

namespace LuaSugar

open LuaSugar.Parser

/-- What a grammar checks that need not be checked. -/
structure Strictness where
  /-- Names, members and subscripts are assigned to, also in parentheses. -/
  targets : Bool
  /-- No statement follows a `return`. -/
  returns : Bool

namespace Strictness

variable (k : Strictness)

/-- A list passes, with all lists in it. -/
def Block (block : Block) : Prop := k.returns → LuaSugar.Block.Orderly block

/-- A node passes when it is added to an arena. -/
def Expr (a : LuaSugar.Arena) : Expr → Prop
  | .arith (.assign _ target _) => k.targets → (a.get target).isAssignable
  | .atom (.func func) => k.Block func.body
  | _ => True

/-- Every node passes. What is assigned to was there before. -/
def Arena (a : LuaSugar.Arena) : Prop :=
  ∀ i, k.Expr a (a.get i) ∧ ∀ op target value, a.get i = .arith (.assign op target value) →
    k.targets → target.index < i.index

variable {k} {a b : LuaSugar.Arena}

/-- An arena without nodes is strict. -/
theorem arena_empty : k.Arena .empty := by
  intro i
  rw [Arena.get_of_size_le (Nat.zero_le _)]
  exact ⟨trivial, by simp⟩

/-- The nodes of an arena pass in an arena that begins with them only if
they pass in it. -/
theorem Arena.of_extends (hab : a.Extends b) (hb : k.Arena b) : k.Arena a := by
  intro i
  by_cases hi : i.index < a.size
  · have h := hb i
    rw [hab.get_eq i hi] at h
    refine ⟨?_, h.2⟩
    cases he : a.get i with
    | atom atom =>
      rw [he] at h
      cases atom <;> exact h.1
    | arith arith =>
      cases arith with
      | assign op target value =>
        rw [he] at h
        intro hk
        have hassignable := h.1 hk
        rwa [hab.get_eq target ((h.2 op target value rfl hk).trans hi)] at hassignable
      | _ => trivial
  · rw [Arena.get_of_size_le (Nat.le_of_not_lt hi)]
    exact ⟨trivial, by simp⟩

/-- A node stays strict as the arena grows. -/
theorem Expr.of_extends {e : LuaSugar.Expr} (hab : a.Extends b) (he : k.Expr a e) : k.Expr b e := by
  cases e with
  | atom atom => cases atom <;> exact he
  | arith arith =>
    cases arith with
    | assign op target value =>
      exact fun hk => (hab.keeps (V := ⟨fun _ => True, fun _ => True, fun e => e.isAssignable⟩)
        fun _ => id).target target (he hk)
    | _ => trivial

/-- **A node is added** to nodes that pass: all pass if it does. -/
theorem arena_alloc {e : LuaSugar.Expr} (ha : k.Arena a) :
    k.Arena (a.alloc e).2 ↔ k.Expr a e := by
  have hext := Arena.extends_alloc a e
  have hself : (a.alloc e).2.get ⟨a.size⟩ = e := Arena.get_alloc_self a e
  constructor
  · intro h
    have hi := h ⟨a.size⟩
    rw [hself] at hi
    cases e with
    | atom atom => cases atom <;> exact hi.1
    | arith arith =>
      cases arith with
      | assign op target value =>
        intro hk
        have hassignable := hi.1 hk
        rwa [hext.get_eq target (hi.2 op target value rfl hk)] at hassignable
      | _ => trivial
  · intro he i
    rcases Arena.get_alloc_cases a e i with hi | ⟨rfl, hi⟩
    · rw [hi]
      exact ⟨(ha i).1.of_extends hext, (ha i).2⟩
    · rw [hi]
      refine ⟨he.of_extends hext, ?_⟩
      -- an id outside the arena reads as `nil`, which is not assigned to
      rintro op target value rfl hk
      refine Arena.inside_of_get_ne target fun hnil => ?_
      have hassignable := he hk
      rw [hnil] at hassignable
      cases hassignable

/-- A list without statements is strict. -/
theorem block_nil : k.Block [] := fun _ => ⟨.nil, by intro s hs; cases hs⟩

/-- A statement passes if its lists do. -/
def Stmt (k : Strictness) (kind : StmtKind) : Prop := ∀ b ∈ kind.blocks, k.Block b

/-- A statement with one nested list is as strict as the list. -/
theorem stmt_single {kind : StmtKind} {body : LuaSugar.Block} (h : kind.blocks = [body]) :
    k.Stmt kind ↔ k.Block body := by
  simp [Stmt, h]

/-- A statement without nested lists is strict. -/
theorem stmt_plain {kind : StmtKind} (h : kind.blocks = []) : k.Stmt kind := by
  simp [Stmt, h]

/-- **A statement is put behind others.** -/
theorem block_concat {block : LuaSugar.Block} {s : LuaSugar.Stmt} :
    k.Block (block ++ [s]) ↔ k.Block block ∧
      (k.returns → ∀ last ∈ block.getLast?, last.kind.isReturn = false) ∧
      k.Stmt s.kind := by
  have horderly : ∀ {l : LuaSugar.Block}, LuaSugar.Block.Orderly l ↔
      LuaSugar.Block.ReturnsLast l ∧ ∀ t ∈ l, ∀ b ∈ t.kind.blocks, LuaSugar.Block.Orderly b := by
    intro l
    refine and_congr_right fun _ => Block.everywhere_iff.trans ?_
    refine forall₂_congr fun t _ => ?_
    exact ⟨fun h b hb => ⟨h.1 b hb, h.2 b hb⟩,
      fun h => ⟨fun b hb => (h b hb).1, fun b hb => (h b hb).2⟩⟩
  unfold Strictness.Block
  rw [horderly, horderly (l := block), Block.ReturnsLast, List.isChain_append]
  simp only [List.isChain_singleton, List.head?_singleton, Option.mem_def, Option.some.injEq,
    List.mem_append, List.mem_singleton]
  constructor
  · intro h
    exact ⟨fun hk => ⟨(h hk).1.1, fun t ht => (h hk).2 t (.inl ht)⟩,
      fun hk last hlast => (h hk).1.2.2 last hlast s rfl, fun b hb hk => (h hk).2 s (.inr rfl) b hb⟩
  · rintro ⟨hblock, hlast, hs⟩ hk
    refine ⟨⟨(hblock hk).1, trivial, fun last hl _ _ => hlast hk last hl⟩, ?_⟩
    rintro t (ht | rfl) b hb
    · exact (hblock hk).2 t ht b hb
    · exact hs b hb hk

end Strictness

/-! ## Parsers that check more -/

namespace Parser

variable {α β σ : Type} {k : Strictness} {J : α → Prop} {K : β → Prop}

/-- From nodes that pass, `q` answers what `p` answers if that passes, and
nothing else. -/
structure Checks (k : Strictness) (J : α → Prop) (q p : Parser α) : Prop where
  extend : ∀ s, Leaves True p (fun _ s' => s.arena.Extends s'.arena) s
  iff : ∀ s, k.Arena s.arena → ∀ x s',
    q s = .ok (x, s') ↔ p s = .ok (x, s') ∧ k.Arena s'.arena ∧ J x

/-- The same if nothing is asked of the answer. -/
abbrev Agrees (k : Strictness) (q p : Parser α) : Prop := Checks k (fun _ => True) q p

/-- Parsers one after the other succeed if both do. -/
theorem bind_eq_ok {p : Parser α} {f : α → Parser β} {s s'' : ParseState} {y : β} :
    (p >>= f) s = .ok (y, s'') ↔ ∃ x s', p s = .ok (x, s') ∧ f x s' = .ok (y, s'') := by
  show (p s >>= fun x => f x.1 x.2) = _ ↔ _
  cases p s with
  | error e => simp [bind, Except.bind]
  | ok r =>
    obtain ⟨x, s'⟩ := r
    simp [bind, Except.bind]

/-- When `p` ends with nodes and an answer that pass, `I` holds. -/
def Shows (k : Strictness) (J : α → Prop) (p : Parser α) (I : Prop) : Prop :=
  ∀ s, Leaves True p (fun x s' => s.arena.Extends s'.arena ∧ (k.Arena s'.arena → J x → I)) s

/-- A parser that is checked shows what is asked for. -/
theorem Checks.shows {q p : Parser α} {I : Prop} (h : Checks k J q p) (hi : ∀ x, J x → I) :
    Shows k J p I :=
  fun s => (h.extend s).mono fun x _ hs' => ⟨hs', fun _ => hi x⟩

/-- Either branch shows it. -/
theorem Shows.ite {c : Prop} [Decidable c] {p p' : Parser α} {I : Prop} (h : Shows k J p I)
    (h' : Shows k J p' I) : Shows k J (if c then p else p') I := by
  split
  · exact h
  · exact h'

/-- What the second of two shows. -/
theorem Shows.bind {q p : Parser α} {f : α → Parser β} {I : Prop} (hp : Checks k J q p)
    (hf : ∀ x, Shows k K (f x) I) : Shows k K (p >>= f) I := by
  intro s
  rw [leaves_bind]
  exact (hp.extend s).mono fun x s' hs' => (hf x s').mono fun y s'' h => ⟨hs'.trans h.1, h.2⟩

/-- What is made of an answer shows it. -/
theorem Shows.map {q p : Parser α} {f : α → β} {I : Prop} (hp : Checks k J q p)
    (hf : ∀ x, K (f x) → I) : Shows k K (f <$> p) I := by
  rw [map_eq_pure_bind]
  exact bind hp fun x _ => ⟨.refl _, fun _ => hf x⟩

/-- What is shown can be weakened. -/
theorem Shows.mono {p : Parser α} {I I' : Prop} (h : Shows k J p I) (hi : I → I') :
    Shows k J p I' :=
  fun s => (h s).mono fun _ _ hs' => ⟨hs'.1, fun ha hj => hi (hs'.2 ha hj)⟩

/-- What the first of two shows. -/
theorem Shows.first {p : Parser α} {f' f : α → Parser β} {I : Prop}
    (hp : Shows k (fun _ => True) p I) (hf : ∀ x, Checks k K (f' x) (f x)) :
    Shows k K (p >>= f) I := by
  intro s
  rw [leaves_bind]
  refine (hp s).mono fun x s' hs' => ((hf x).extend s').mono fun y s'' hext => ?_
  exact ⟨hs'.1.trans hext, fun hs'' _ => hs'.2 (hs''.of_extends hext) trivial⟩

namespace Checks

/-- What is checked may be said in other words. -/
theorem imp {q p : Parser α} {J' : α → Prop} (h : Checks k J q p) (hj : ∀ x, J x ↔ J' x) :
    Checks k J' q p :=
  ⟨h.extend, fun s hs x s' => by rw [h.iff s hs, hj]⟩

/-- **What passes in the end passes on the way**: an answer that shows in
the answer it leads to, in nodes that are only added to. -/
theorem bind_of {q p : Parser α} {f' f : α → Parser β} (hp : Checks k J q p)
    (hf : ∀ x, J x → Checks k K (f' x) (f x))
    (hshows : ∀ x, Shows k K (f x) (J x)) :
    Checks k K (q >>= f') (p >>= f) := by
  refine ⟨fun s => ?_, fun s hs y s'' => ?_⟩
  · rw [leaves_bind]
    exact (hp.extend s).mono fun x s' hs' => (hshows x s').mono fun y s'' h => hs'.trans h.1
  · rw [bind_eq_ok, bind_eq_ok]
    constructor
    · rintro ⟨x, s', hq, hf'⟩
      obtain ⟨hprun, hs', hx⟩ := (hp.iff s hs x s').1 hq
      obtain ⟨hfrun, hs'', hy⟩ := ((hf x hx).iff s' hs' y s'').1 hf'
      exact ⟨⟨x, s', hprun, hfrun⟩, hs'', hy⟩
    · rintro ⟨⟨x, s', hprun, hfrun⟩, hs'', hy⟩
      obtain ⟨hextend, hback⟩ := (hshows x s').of_ok hfrun
      have hs' := hs''.of_extends hextend
      have hx := hback hs'' hy
      exact ⟨x, s', (hp.iff s hs x s').2 ⟨hprun, hs', hx⟩,
        ((hf x hx).iff s' hs' y s'').2 ⟨hfrun, hs'', hy⟩⟩

/-- **One after the other**, where the first has nothing to check but nodes. -/
theorem bind {q p : Parser α} {f' f : α → Parser β} (hp : Agrees k q p)
    (hf : ∀ x, Checks k K (f' x) (f x)) : Checks k K (q >>= f') (p >>= f) :=
  bind_of hp (fun x _ => hf x) fun x => (hf x).shows fun _ _ => trivial

/-- A value that passes the check. -/
theorem pure (x : α) (hx : J x) : Checks k J (Pure.pure x) (Pure.pure x) :=
  ⟨fun _ => .refl _, fun s hs y s' => by
    refine ⟨fun h => ⟨h, ?_⟩, fun h => h.1⟩
    cases h
    exact ⟨hs, hx⟩⟩

/-- What is made of a value passes if the value does. -/
theorem map {q p : Parser α} {f : α → β} (hp : Checks k J q p) (hf : ∀ x, K (f x) ↔ J x) :
    Checks k K (f <$> q) (f <$> p) := by
  rw [map_eq_pure_bind, map_eq_pure_bind]
  exact bind_of hp (fun x hx => pure _ ((hf x).2 hx)) fun x _ => ⟨.refl _, fun _ => (hf x).1⟩

/-- Both fail, so there is nothing to check. -/
theorem fail (fault : ParseFault) : Checks k J (Parser.fail fault) (Parser.fail fault) :=
  ⟨fun _ => trivial, fun _ _ _ _ => ⟨fun h => (nomatch h), fun h => (nomatch h.1)⟩⟩

/-- A parser whose answers never pass is refused. -/
theorem refused {p : Parser α} (fault : ParseFault) (h : Shows k J p False) :
    Checks k J (Parser.fail fault) p :=
  ⟨fun s => (h s).mono fun _ _ hs' => hs'.1, fun s _ _ _ =>
    ⟨fun hq => (nomatch hq), fun ⟨hp, hs', hx⟩ => (((h s).of_ok hp).2 hs' hx).elim⟩⟩

theorem unexpected (what : Expectation) :
    Checks k J (Parser.unexpected what) (Parser.unexpected what) :=
  ⟨fun _ => trivial, fun _ _ _ _ => ⟨fun h => (nomatch h), fun h => (nomatch h.1)⟩⟩

/-- Both take the same branch. -/
theorem ite {c : Prop} [Decidable c] {q q' p p' : Parser α} (h : Checks k J q p)
    (h' : Checks k J q' p') : Checks k J (if c then q else q') (if c then p else p') := by
  split
  · exact h
  · exact h'

/-- A repetition whose value shows in what a step makes of it. -/
theorem loop_of {I : σ → Prop} {step' step : σ → Parser (σ ⊕ α)}
    (hstep : ∀ v, I v → Checks k (Sum.elim I J) (step' v) (step v))
    (hshows : ∀ v, Shows k (Sum.elim I J) (step v) (I v)) {start : σ} (hstart : I start) :
    Checks k J (Parser.loop step' start) (Parser.loop step start) := by
  -- both loops are bounded, so by induction on the rounds
  have hwithin : ∀ count v,
      (I v → Checks k J (loopWithin step' count v) (loopWithin step count v)) ∧
      Shows k J (loopWithin step count v) (I v) := by
    intro count
    induction count with
    | zero => exact fun v => ⟨fun _ => fail _, fun _ => trivial⟩
    | succ count ih =>
      intro v
      refine ⟨fun hv => bind_of (hstep v hv) (fun r hr => ?_) fun r => ?_, fun s => ?_⟩
      · cases r with
        | inl next => exact (ih next).1 hr
        | inr result => exact pure result hr
      · cases r with
        | inl next => exact (ih next).2
        | inr result => exact fun s => ⟨.refl _, fun _ => id⟩
      · rw [loopWithin, leaves_bind]
        refine (hshows v s).mono fun r s' hr => ?_
        cases r with
        | inl next =>
          refine ((ih next).2 s').mono fun x s'' h => ⟨hr.1.trans h.1, fun hs'' hx => ?_⟩
          exact hr.2 (hs''.of_extends h.1) (h.2 hs'' hx)
        | inr result => exact hr
  exact ⟨fun s => ((hwithin _ start).2 s).mono fun _ _ h => h.1,
    fun s => ((hwithin _ start).1 hstart).iff s⟩

/-- A parser that leaves the arena alone. -/
theorem quiet {p : Parser α} (h : ∀ s, Leaves True p (fun _ s' => s'.arena = s.arena) s) :
    Agrees k p p := by
  refine ⟨fun s => (h s).mono fun _ s' hs' => hs' ▸ .refl _, fun s hs x s' => ?_⟩
  refine ⟨fun hp => ⟨hp, ?_, trivial⟩, fun hp => hp.1⟩
  rwa [(h s).of_ok hp]

/-- **Loops agree** if their steps do. By the bound, which is what is left to read. -/
theorem loop {step' step : σ → Parser (σ ⊕ α)} (h : ∀ v, Agrees k (step' v) (step v)) (start : σ) :
    Agrees k (Parser.loop step' start) (Parser.loop step start) := by
  refine loop_of (I := fun _ => True) (fun v _ => (h v).imp ?_) (fun v s => ?_) trivial
  · rintro (_ | _) <;> exact Iff.rfl
  · exact ((h v).extend s).mono fun _ _ hs' => ⟨hs', fun _ _ => trivial⟩

/-- Nodes are added that pass. -/
theorem built {b : Build α} {e : Expr} (hb : ∀ a : Arena, (b.run a).2 = (a.alloc e).2)
    (h : ∀ a, k.Expr a e) : Agrees k (Parser.build b) (Parser.build b) := by
  refine ⟨fun s => ?_, fun s hs x s' => ⟨fun hp => ⟨hp, ?_, trivial⟩, fun hp => hp.1⟩⟩
  · rw [leaves_build, hb]
    exact Arena.extends_alloc s.arena e
  · cases hp
    show k.Arena (b.run s.arena).2
    rw [hb]
    exact (Strictness.arena_alloc hs).2 (h _)

/-- A node that is strict in every arena. -/
theorem alloc {e : Expr} (h : ∀ a, k.Expr a e) : Agrees k (Parser.alloc e) (Parser.alloc e) :=
  built (fun _ => rfl) h

theorem get : Agrees k get get := quiet fun _ => rfl

theorem current : Agrees k current current := quiet fun _ => rfl

theorem lookAhead : Agrees k lookAhead lookAhead := quiet fun _ => rfl

theorem line : Agrees k line line := quiet fun _ => rfl

theorem advance : Agrees k advance advance := quiet fun _ => rfl

/-- Whether a token is eaten does not depend on strictness. -/
theorem eat (kind : TokenKind) : Agrees k (eat kind) (eat kind) := quiet fun s => by simp

theorem eatOp (op : Operator) : Agrees k (eatOp op) (eatOp op) := eat _

theorem eatKeyword (word : Keyword) : Agrees k (eatKeyword word) (eatKeyword word) := eat _

theorem expectOp (op : Operator) : Agrees k (expectOp op) (expectOp op) := quiet fun s => by simp

theorem expectKeyword (word : Keyword) : Agrees k (expectKeyword word) (expectKeyword word) :=
  quiet fun s => by simp

theorem expectName : Agrees k expectName expectName := by
  refine quiet fun s => ?_
  rw [leaves_expectName]
  split
  · rfl
  · trivial

/-- Items that agree between commas. -/
theorem commaSeparated {item' item : Parser α} (h : Agrees k item' item) :
    Agrees k (Parser.commaSeparated item') (Parser.commaSeparated item) :=
  .bind h fun _ => loop (fun _ => .bind (eatOp _) fun _ =>
    .ite (.bind h fun _ => .pure _ trivial) (.pure _ trivial)) _

theorem parameters (opening closing : Operator) :
    Agrees k (Parser.parameters opening closing) (Parser.parameters opening closing) :=
  .bind (expectOp _) fun _ => .bind (eatOp _) fun _ => .ite (.pure _ trivial)
    (loop (fun _ => .bind (eatOp _) fun _ =>
      .ite (.bind (expectOp _) fun _ => .pure _ trivial)
        (.bind expectName fun _ => .bind (eatOp _) fun _ =>
          .ite (.pure _ trivial) (.bind (expectOp _) fun _ => .pure _ trivial))) _)

theorem pushNamed (t : Table) (key : String) (value : ExprId) :
    Agrees k (build (Build.pushNamed t key value)) (build (Build.pushNamed t key value)) :=
  built (e := .ofText key) (fun _ => rfl) fun _ => trivial

/-- One by one over a list. -/
theorem forM {f : α → Parser PUnit} (h : ∀ x, Agrees k (f x) (f x)) (l : List α) :
    Agrees k (l.forM f) (l.forM f) := by
  induction l with
  | nil => exact .pure _ trivial
  | cons x l ih => exact .bind (h x) fun _ => ih

/-- The dotted name of a function statement. -/
theorem functionPath : Agrees k Grammar.functionPath Grammar.functionPath :=
  .bind expectName fun _ => loop (fun _ => .bind (eatOp _) fun _ =>
    .ite (.bind expectName fun _ => .pure _ trivial) (.bind (eatOp _) fun _ =>
      .ite (.bind expectName fun _ => .pure _ trivial) (.pure _ trivial))) _

end Checks

end Parser

namespace Grammar

/-! ## The strict grammar -/

section Definitions

variable (k : Strictness) (g : Grammar)

/-- An expression or assignment; what is assigned to is looked at. -/
def strictAssignment : Parser ExprId := do
  let target ← g.operation 1
  match assignOp? (← current) with
  | some op =>
    advance
    let value ← g.assignment
    if k.targets then checkAssignable target
    alloc (.arith (.assign op target value))
  | none => pure target

/-- Statements up to the end of their list; behind a `return` it has to
end. -/
def strictStatements (stop : BlockEnd) : Parser Block :=
  loop (fun found => do
    skipSemicolons
    if ← blockEnds stop then pure (.inr found)
    else if k.returns && found.getLast?.any (·.kind.isReturn) then fail .notAStatement
    else pure (.inl (found ++ [← g.statement]))) []

/-- The grammar unrolled once more, with its checks. -/
def strict : Grammar :=
  { g.unroll with assignment := g.strictAssignment k, block := g.strictStatements k }

/-- The grammar unrolled so many times, with its checks. -/
def strictLevel : ℕ → Grammar
  | 0 => stalled
  | n + 1 => (strictLevel n).strict k

end Definitions

/-- The recursive parsers check more than others. -/
structure Checks (k : Strictness) (g' g : Grammar) : Prop where
  expression : ∀ n, Agrees k (g'.expression n) (g.expression n)
  assignment : Agrees k g'.assignment g.assignment
  element : Agrees k g'.element g.element
  block : ∀ stop, Parser.Checks k k.Block (g'.block stop) (g.block stop)
  ifArm : ∀ line, Parser.Checks k (fun arm => ∀ b ∈ arm.bodies, k.Block b) (g'.ifArm line)
    (g.ifArm line)

namespace Checks

variable {k : Strictness} {g' g : Grammar} (h : g'.Checks k g)
include h

/-! ## Expressions -/

theorem expressionList : Agrees k g'.expressionList g.expressionList :=
  .commaSeparated (h.expression 1)

/-- **The body of a function** is a strict list exactly if the strict parser reads it. -/
theorem funcBody : Parser.Checks k (fun func => k.Block func.body) g'.funcBody g.funcBody :=
  .bind (.parameters _ _) fun _ => .bind_of (h.block _) (fun _ hbody => .pure _ hbody)
    fun _ _ => ⟨.refl _, fun _ => id⟩

omit h in
/-- A function literal shows its body. -/
theorem shows_func (func : FuncBody) :
    Shows k (fun _ => True) (alloc (.atom (.func func))) (k.Block func.body) := by
  intro s
  have hext := Arena.extends_alloc s.arena (.atom (.func func))
  exact ⟨hext, fun hs' _ => (Strictness.arena_alloc (hs'.of_extends hext)).1 hs'⟩

theorem function : Agrees k (do alloc (.atom (.func (← g'.funcBody))))
    (do alloc (.atom (.func (← g.funcBody)))) :=
  .bind_of h.funcBody (fun _ hfunc => .alloc fun _ => hfunc) shows_func

/-- A lambda returns one expression, and its list is strict whatever that is. -/
theorem lambda (line : ℕ) : Agrees k (g'.lambda line) (g.lambda line) := by
  have hret (value : ExprId) : k.Block ([] ++ [Stmt.ret [value] line]) :=
    Strictness.block_concat.2 ⟨Strictness.block_nil, by simp, Strictness.stmt_plain rfl⟩
  exact .bind (.parameters _ _) fun _ => .bind (h.expression 1) fun value =>
    .alloc fun _ => hret value

/-- An entry of a table. What is read ahead says which kind it is. -/
theorem tableEntry (t : Table) : Agrees k (g'.tableEntry t) (g.tableEntry t) := by
  refine .bind .lookAhead fun kinds => ?_
  split
  · exact .bind .advance fun _ => .bind .advance fun _ => .bind (h.expression 1) fun value =>
      .pushNamed ..
  · exact .bind .advance fun _ => .bind (h.expression 1) fun _ => .bind (.expectOp _) fun _ =>
      .bind (.expectOp _) fun _ => .bind (h.expression 1) fun _ => .pure _ trivial
  · exact .bind .advance fun _ => .bind .advance fun _ => .bind_of h.funcBody
      (fun func hfunc => .bind (.alloc fun _ => hfunc) fun value => .pushNamed ..)
      fun func => (shows_func func).first fun value => .pushNamed ..
  · exact .bind (h.expression 1) fun _ => .pure _ trivial

theorem table : Agrees k g'.table g.table :=
  .bind (.expectOp _) fun _ => .bind (.loop (fun t => .bind (.eatOp _) fun _ =>
      .ite (.pure _ trivial) (.bind (h.tableEntry t) fun _ => .bind (.eatOp _) fun _ =>
        .ite (.pure _ trivial)
        (.bind (.eatOp _) fun _ => .ite (.pure _ trivial)
          (.bind (.expectOp _) fun _ => .pure _ trivial)))) _) fun _ =>
    .alloc fun _ => trivial

/-- What a property is set to, if anything. -/
theorem propertyValue (property : String) :
    Agrees k (g'.propertyValue property) (g.propertyValue property) := by
  refine .bind (.eatOp _) fun _ => .ite (.bind .current fun kind => ?_) (.alloc fun _ => trivial)
  split
  · exact .bind .advance fun _ => .alloc fun _ => trivial
  · exact .bind .advance fun _ => .bind (h.expression 1) fun _ => .bind (.expectOp _) fun _ =>
      .pure _ trivial
  · exact .unexpected _

theorem properties : Agrees k g'.properties g.properties := by
  refine .loop (fun found => .bind .current fun kind => ?_) _
  split
  · exact .bind .advance fun _ => .bind (h.propertyValue _) fun _ => .pure _ trivial
  · exact .pure _ trivial

theorem elementChildren (name : String) :
    Agrees k (g'.elementChildren name) (g.elementChildren name) := by
  refine .loop (fun found => .bind .lookAhead fun kinds => ?_) _
  split
  · exact .bind .advance fun _ => .bind (h.expression 1) fun _ => .bind (.expectOp _) fun _ =>
      .pure _ trivial
  · exact .bind .advance fun _ => .bind .advance fun _ => .pure _ trivial
  · exact .bind h.element fun _ => .bind (.alloc fun _ => trivial) fun _ => .pure _ trivial
  · exact .unexpected _

theorem elementLiteral : Agrees k g'.elementLiteral g.elementLiteral :=
  .bind (.expectOp _) fun _ => .bind .expectName fun _ => .bind h.properties fun _ =>
    .bind (.eatOp _) fun _ => .ite (.bind (.expectOp _) fun _ => .pure _ trivial)
      (.bind (.expectOp _) fun _ => .bind (h.elementChildren _) fun _ => .bind .expectName fun _ =>
        .ite (.fail _) (.bind (.expectOp _) fun _ => .pure _ trivial))

/-- What an expression begins with. A function literal is allocated with its
body, which is checked where it is read. -/
theorem primary : Agrees k g'.primary g.primary := by
  have hatom {atom : Atom} (ha : ∀ a, k.Expr a (.atom atom)) :
      Agrees k (readAtom atom) (readAtom atom) :=
    .bind .advance fun _ => .alloc ha
  refine .bind .line fun line => .bind .current fun kind => ?_
  split
  case h_1 =>
    exact .bind .advance fun _ => .bind h.assignment fun _ => .bind (.expectOp _) fun _ =>
      .pure _ trivial
  case h_2 => exact h.table
  case h_3 => exact .bind h.elementLiteral fun _ => .alloc fun _ => trivial
  case h_4 => exact h.lambda line
  case h_12 => exact .bind .advance fun _ => h.function
  case h_13 | h_14 | h_15 => exact .fail _
  all_goals exact hatom fun _ => trivial

theorem parenthesizedArguments : Agrees k g'.parenthesizedArguments g.parenthesizedArguments :=
  .bind (.expectOp _) fun _ => .bind (.eatOp _) fun _ => .ite (.pure _ trivial)
    (.bind h.expressionList fun _ => .bind (.expectOp _) fun _ => .pure _ trivial)

theorem callArguments : Agrees k g'.callArguments g.callArguments := by
  refine .bind .current fun kind => ?_
  split
  · exact .bind .advance fun _ => .bind (.alloc fun _ => trivial) fun _ => .pure _ trivial
  · exact .bind h.table fun _ => .pure _ trivial
  · exact h.parenthesizedArguments

/-- One suffix of an expression. -/
theorem suffix (calls : Bool) (expr : ExprId) :
    Agrees k (g'.suffix calls expr) (g.suffix calls expr) := by
  have hinl {p p' : Parser ExprId} (hp : Agrees k p' p) :
      Agrees k ((Sum.inl : ExprId → ExprId ⊕ ExprId) <$> p') (Sum.inl <$> p) :=
    .map hp fun _ => Iff.rfl
  have hcall : Agrees k (do let args ← g'.callArguments; Sum.inl <$> build (Build.call expr args))
      (do
        let args ← g.callArguments
        (Sum.inl : ExprId → ExprId ⊕ ExprId) <$> build (Build.call expr args)) :=
    .bind h.callArguments fun args => hinl (.alloc (e := .call expr args) fun _ => trivial)
  refine .bind .current fun kind => ?_
  split
  · exact .bind .advance fun _ => .bind .expectName fun name =>
      hinl (.alloc (e := .arith (.member expr name)) fun _ => trivial)
  · exact .bind .advance fun _ => .bind (h.expression 1) fun key => .bind (.expectOp _) fun _ =>
      hinl (.alloc (e := .arith (.subscript expr key)) fun _ => trivial)
  · exact .bind .advance fun _ => .bind .expectName fun _ => .bind h.callArguments fun _ =>
      hinl (.alloc fun _ => trivial)
  · exact hcall
  · exact hcall
  · exact hcall
  · exact .pure _ trivial

theorem suffixed (calls : Bool) : Agrees k (g'.suffixed calls) (g.suffixed calls) :=
  .bind h.primary fun _ => .loop (h.suffix calls) _

theorem unary : Agrees k g'.unary g.unary := by
  refine .bind .current fun kind => ?_
  split
  · split
    · exact .bind .advance fun _ => .bind (h.expression _) fun _ => .alloc fun _ => trivial
    · exact h.suffixed true
  · exact h.suffixed true

theorem operation (minimum : ℕ) : Agrees k (g'.operation minimum) (g.operation minimum) := by
  refine .bind h.unary fun left => .loop (fun left => .bind .current fun kind => ?_) left
  split
  · rename_i binary _ _ _
    exact .bind .advance fun _ => .bind (h.expression _) fun right => .map (J := fun _ => True)
      (.alloc (e := .arith (.binary binary left right)) fun _ => trivial) fun _ => Iff.rfl
  · exact .pure _ trivial

omit h in
/-- The check for a target reads nothing. -/
theorem checkAssignable_eq (target : ExprId) (s : ParseState) : Grammar.checkAssignable target s =
    if (s.arena.get target).isAssignable then .ok ((), s)
    else (fail .notAssignable : Parser Unit) s := by
  unfold Grammar.checkAssignable
  dsimp only [bind, StateT.bind, get, getThe, MonadStateOf.get, StateT.get, pure, Except.pure,
    Except.bind]
  cases s.arena.get target with
  | atom atom => cases atom <;> rfl
  | arith arith => cases arith <;> rfl

omit h in
/-- Both parsers check targets of statements. -/
theorem checkAssignable (target : ExprId) :
    Agrees k (Grammar.checkAssignable target) (Grammar.checkAssignable target) := by
  refine .quiet fun s => ?_
  rw [Leaves, checkAssignable_eq]
  split <;> rename_i hrun <;> split at hrun <;> cases hrun
  · rfl
  · trivial

omit h in
/-- What is assigned to is looked at before the node is made of it. -/
theorem assign (op : AssignOp) (target value : ExprId) :
    Agrees k (do
      if k.targets then Grammar.checkAssignable target
      alloc (.arith (.assign op target value)))
    (alloc (.arith (.assign op target value))) := by
  have hext := fun s : ParseState => Arena.extends_alloc s.arena (.arith (.assign op target value))
  refine ⟨hext, fun s hs x s' => ?_⟩
  have hpasses : alloc (.arith (.assign op target value)) s = .ok (x, s') →
      (k.Arena s'.arena ↔ (k.targets → (s.arena.get target).isAssignable)) := by
    intro hp
    cases hp
    exact Strictness.arena_alloc hs
  by_cases hk : k.targets
  · rw [if_pos hk]
    show (Grammar.checkAssignable target s >>= fun r =>
      alloc (.arith (.assign op target value)) r.2) = _ ↔ _
    rw [checkAssignable_eq]
    by_cases htarget : (s.arena.get target).isAssignable
    · rw [if_pos htarget]
      exact ⟨fun hp => ⟨hp, (hpasses hp).2 fun _ => htarget, trivial⟩, fun hp => hp.1⟩
    · rw [if_neg htarget]
      exact ⟨fun hp => (nomatch hp), fun hp => absurd ((hpasses hp.1).1 hp.2.1 hk) htarget⟩
  · rw [if_neg hk]
    exact ⟨fun hp => ⟨hp, (hpasses hp).2 fun ht => absurd ht hk, trivial⟩, fun hp => hp.1⟩

/-- **Assignments in parentheses** are checked by the strict parser alone: it
fails where a node would be no strict one. -/
theorem strictAssignment : Agrees k (g'.strictAssignment k) g.assignmentOrExpression := by
  refine .bind (h.operation 1) fun target => .bind .current fun kind => ?_
  cases assignOp? kind with
  | some op => exact .bind .advance fun _ => .bind h.assignment fun value => assign op target value
  | none => exact .pure _ trivial

/-! ## Statements -/

/-- An arm is strict if all lists in it are. -/
theorem conditionalArm (line : ℕ) : Parser.Checks k (fun arm => ∀ b ∈ arm.bodies, k.Block b)
    (g'.conditionalArm line) (g.conditionalArm line) := by
  -- an arm passes if its body does, and whatever applies otherwise
  have harm {condition : ExprId} {body : Block} {otherwise : ElseArm} :
      (∀ b ∈ (IfArm.mk condition body line otherwise).bodies, k.Block b) ↔
        k.Block body ∧ ∀ b ∈ otherwise.bodies, k.Block b := by
    rw [IfArm.bodies, List.forall_mem_cons]
  have hblock {block : Block} {line : ℕ} :
      (∀ b ∈ (ElseArm.elseBlock block line).bodies, k.Block b) ↔ k.Block block := by
    simp [ElseArm.bodies]
  have hshows {condition : ExprId} {body : Block} (otherwise : ElseArm) :
      Shows k (fun arm => ∀ b ∈ arm.bodies, k.Block b)
        (pure (IfArm.mk condition body line otherwise)) (k.Block body) :=
    fun _ => ⟨.refl _, fun _ ha => (harm.1 ha).1⟩
  refine .bind (h.operation 1) fun condition => .bind (.expectKeyword _) fun _ =>
    .bind_of (h.block _) (fun body hbody => ?_) fun body => ?_
  · refine .bind .line fun elseLine => .bind (.eatKeyword _) fun _ => .ite ?_
      (.bind (.eatKeyword _) fun _ => .ite ?_ ?_)
    · exact .bind_of (h.ifArm _) (fun arm ha => .pure _ (harm.2 ⟨hbody, ha⟩))
        fun arm _ => ⟨.refl _, fun _ ha => (harm.1 ha).2⟩
    · exact .bind_of (h.block _) (fun block hb => .pure _ (harm.2 ⟨hbody, hblock.2 hb⟩))
        fun block _ => ⟨.refl _, fun _ ha => hblock.1 (harm.1 ha).2⟩
    · exact .bind (.expectKeyword _) fun _ => .pure _ (harm.2 ⟨hbody, by simp [ElseArm.bodies]⟩)
  · exact .bind .line fun _ => .bind (.eatKeyword _) fun _ =>
      .ite (.bind (h.ifArm _) fun _ => hshows _) (.bind (.eatKeyword _) fun _ =>
        .ite (.bind (h.block _) fun _ => hshows _) (.bind (.expectKeyword _) fun _ => hshows _))

omit h in
/-- A statement made of one list. -/
theorem body {q p : Parser Block} {f : Block → StmtKind} (hp : Parser.Checks k k.Block q p)
    (hf : ∀ body, (f body).blocks = [body]) :
    Parser.Checks k k.Stmt (do let body ← q; pure (f body)) (do let body ← p; pure (f body)) :=
  .bind_of hp (fun body hbody => .pure _ ((Strictness.stmt_single (hf body)).2 hbody))
    fun body _ => ⟨.refl _, fun _ => (Strictness.stmt_single (hf body)).1⟩

/-- The body of a loop. -/
theorem loopBody {f : Block → StmtKind} (hf : ∀ body, (f body).blocks = [body]) :
    Parser.Checks k k.Stmt (do expectKeyword .do_; let body ← g'.block .endWord; pure (f body))
      (do expectKeyword .do_; let body ← g.block .endWord; pure (f body)) :=
  .bind (.expectKeyword _) fun _ => body (h.block _) hf

/-- Both kinds of loop have one list. -/
theorem forLoop : Parser.Checks k k.Stmt g'.forLoop g.forLoop := by
  refine .bind .expectName fun _ => .bind (.eatOp _) fun _ => .ite ?_ (.bind (.eatOp _) fun _ => ?_)
  · exact .bind (h.expression 1) fun _ => .bind (.expectOp _) fun _ =>
      .bind (h.expression 1) fun _ => .bind (.eatOp _) fun _ => .ite
        (.bind (.map (K := fun _ => True) (h.expression 1) fun _ => Iff.rfl) fun _ =>
          h.loopBody fun _ => rfl)
        (h.loopBody fun _ => rfl)
  · have hiterators (names : List String) : Parser.Checks k k.Stmt
        (do
          expectKeyword .in_
          let iterators ← g'.expressionList
          expectKeyword .do_
          let body ← g'.block .endWord
          pure (StmtKind.forGeneric names iterators body))
        (do
          expectKeyword .in_
          let iterators ← g.expressionList
          expectKeyword .do_
          let body ← g.block .endWord
          pure (.forGeneric names iterators body)) :=
      .bind (.expectKeyword _) fun _ => .bind h.expressionList fun _ => h.loopBody fun _ => rfl
    exact .ite (.bind (.commaSeparated .expectName) fun _ => hiterators _) (hiterators _)

omit h in
/-- A statement without lists passes. -/
theorem plain {kind : StmtKind} (hkind : kind.blocks = []) :
    Parser.Checks k k.Stmt (pure kind) (pure kind) :=
  .pure _ (Strictness.stmt_plain hkind)

/-- A declaration has no list, unless it is of a function. -/
theorem localDeclaration : Parser.Checks k k.Stmt g'.localDeclaration g.localDeclaration :=
  .bind (.eatKeyword _) fun _ => .ite
    (.bind .expectName fun _ => .bind_of h.funcBody
      (fun _ hfunc => .pure _ ((Strictness.stmt_single rfl).2 hfunc))
      fun _ _ => ⟨.refl _, fun _ => (Strictness.stmt_single rfl).1⟩)
    (.bind (.commaSeparated .expectName) fun _ => .bind (.eatOp _) fun _ =>
      .ite (.bind h.expressionList fun _ => plain rfl) (plain rfl))

theorem importStatement : Parser.Checks k k.Stmt g'.importStatement g.importStatement := by
  have hsource (binding : ImportBinding) : Parser.Checks k k.Stmt
      (do
        if !(← eat (.name "from")) then unexpected .fromWord
        let source ← g'.expression 1
        pure (StmtKind.importFrom binding source))
      (do
        if !(← eat (.name "from")) then unexpected .fromWord
        let source ← g.expression 1
        pure (.importFrom binding source)) :=
    .bind (.eat _) fun _ => .ite
      (.bind (.unexpected (J := fun _ => True) _) fun _ =>
        .bind (h.expression 1) fun _ => plain rfl)
      (.bind (h.expression 1) fun _ => plain rfl)
  refine .bind (.eatOp _) fun _ => .ite ?_ ?_
  · exact .bind (.commaSeparated .expectName) fun _ => .bind (.expectOp _) fun _ => hsource _
  · exact .bind (.map (K := fun _ => True) .expectName fun _ => Iff.rfl) fun _ => hsource _

/-- A statement that begins with an expression has no list. -/
theorem expressionStatement :
    Parser.Checks k k.Stmt g'.expressionStatement g.expressionStatement := by
  have hvalues (targets : List ExprId) : Parser.Checks k k.Stmt
      (do
        targets.forM Grammar.checkAssignable
        expectOp .assign
        let values ← g'.expressionList
        pure (StmtKind.assign targets values))
      (do
        targets.forM Grammar.checkAssignable
        expectOp .assign
        let values ← g.expressionList
        pure (.assign targets values)) :=
    .bind (.forM checkAssignable targets) fun _ => .bind (.expectOp _) fun _ =>
      .bind h.expressionList fun _ => plain rfl
  refine .bind (h.suffixed true) fun first => .bind .current fun next => .ite ?_ ?_
  · exact .bind (.eatOp _) fun _ => .ite
      (.bind (.commaSeparated (h.suffixed true)) fun _ => hvalues _) (hvalues [first])
  · split
    · exact .bind (checkAssignable _) fun _ => .bind .advance fun _ =>
        .bind (h.expression 1) fun _ => plain rfl
    · refine .bind .get fun s => ?_
      split
      · exact plain rfl
      · exact .fail _

/-- **A statement of a word** is as strict as its lists. -/
theorem keywordStatement (line : ℕ) (word : Keyword) :
    Parser.Checks k k.Stmt (g'.keywordStatement line word) (g.keywordStatement line word) := by
  cases word with
  | do_ => exact .bind .advance fun _ => .map (h.block _) fun _ => Strictness.stmt_single rfl
  | break_ => exact .bind .advance fun _ => plain rfl
  | if_ => exact .bind .advance fun _ => .map (h.ifArm line) fun _ => Iff.rfl
  | return_ =>
    exact .bind .advance fun _ => .bind .current fun _ => .ite (plain rfl)
      (.map h.expressionList fun _ => iff_of_true (Strictness.stmt_plain rfl) trivial)
  | while_ =>
    exact .bind .advance fun _ => .bind (h.expression 1) fun _ => .bind (.expectKeyword _) fun _ =>
      .map (h.block _) fun _ => Strictness.stmt_single rfl
  | repeat_ =>
    exact .bind .advance fun _ => .bind_of (h.block _)
      (fun body hbody => .map (h.expression 1) fun _ =>
        iff_of_true ((Strictness.stmt_single rfl).2 hbody) trivial)
      fun _ => .map (h.expression 1) fun _ => (Strictness.stmt_single rfl).1
  | for_ => exact .bind .advance fun _ => h.forLoop
  | function_ =>
    exact .bind .advance fun _ => .bind (.functionPath) fun _ => .map h.funcBody fun _ =>
      Strictness.stmt_single rfl
  | local_ => exact .bind .advance fun _ => h.localDeclaration
  | import_ => exact .bind .advance fun _ => h.importStatement
  | else_ | elseif_ | end_ | false_ | in_ | nil_ | then_ | true_ | until_ => exact .fail _

theorem intrinsicStatement :
    Parser.Checks k k.Stmt g'.intrinsicStatement g.intrinsicStatement :=
  .bind (h.suffixed false) fun _ => .bind .current fun _ => .ite
    (.map h.parenthesizedArguments fun _ => iff_of_true (Strictness.stmt_plain rfl) trivial)
    (plain rfl)

/-- A statement with its line. -/
theorem statement : Parser.Checks k (fun s : Stmt => k.Stmt s.kind) g'.statement g.statement := by
  have hlined {line : ℕ} {q p : Parser StmtKind} (hp : Parser.Checks k k.Stmt q p) :
      Parser.Checks k (fun s : Stmt => k.Stmt s.kind) (do pure ⟨← q, line⟩)
        (do pure ⟨← p, line⟩) :=
    .bind_of hp (fun _ hkind => .pure _ hkind) fun _ _ => ⟨.refl _, fun _ => id⟩
  refine .bind .line fun line => .bind .current fun kind => ?_
  split
  · exact hlined (h.keywordStatement line _)
  · exact .bind .advance fun _ => hlined h.intrinsicStatement
  · exact hlined h.expressionStatement

omit h in
/-- Where a block ends does not depend on strictness. -/
theorem blockEnds (stop : BlockEnd) :
    Agrees k (Grammar.blockEnds stop) (Grammar.blockEnds stop) := by
  refine .bind .current fun kind => ?_
  split
  all_goals first
    | exact .pure _ trivial
    | exact .unexpected _
    | exact .bind .advance fun _ => .pure _ trivial

/-- **A list passes** if its statements do and none stands behind a
`return`. -/
theorem strictStatements (stop : BlockEnd) :
    Parser.Checks k k.Block (g'.strictStatements k stop) (g.statements stop) := by
  have hskip : Agrees k skipSemicolons skipSemicolons := .quiet fun _ => rfl
  -- a list shows that what was found of it before may go on
  have hshows (found : Block) : Shows k (Sum.elim k.Block k.Block)
      (do pure (.inl (found ++ [← g.statement])) : Parser (Block ⊕ Block))
      (k.Block found ∧ (k.returns → ∀ last ∈ found.getLast?, last.kind.isReturn = false)) := by
    refine .bind h.statement fun s _ => ⟨.refl _, fun _ hs => ?_⟩
    have hs := Strictness.block_concat.1 hs
    exact ⟨hs.1, hs.2.1⟩
  refine .loop_of (I := k.Block) (fun found hfound => ?_) (fun found => ?_) Strictness.block_nil
  · refine .bind hskip fun _ => .bind (blockEnds stop) fun ends => .ite (.pure _ hfound) ?_
    split
    · rename_i hreturn
      obtain ⟨hk, hlast⟩ := Bool.and_eq_true_iff.1 hreturn
      obtain ⟨last, hmem, hlast⟩ := (Option.any_eq_true _ _).1 hlast
      refine .refused _ ((hshows found).mono fun hgoes => ?_)
      exact absurd hlast (Bool.eq_false_iff.1 (hgoes.2 hk last hmem))
    · rename_i hreturn
      refine .bind_of h.statement (fun s hs => .pure _ ?_) fun s _ => ⟨.refl _, fun _ hs => ?_⟩
      · refine Strictness.block_concat.2 ⟨hfound, fun hk last hlast => ?_, hs⟩
        refine Bool.eq_false_iff.2 fun hisReturn => hreturn ?_
        exact Bool.and_eq_true_iff.2 ⟨hk, (Option.any_eq_true _ _).2 ⟨last, hlast, hisReturn⟩⟩
      · exact (Strictness.block_concat.1 hs).2.2
  · refine .bind hskip fun _ => .bind (blockEnds stop) fun ends => .ite ?_ ?_
    · exact fun _ => ⟨.refl _, fun _ => id⟩
    · exact (hshows found).mono And.left

/-- **One unrolling** of what checks more checks more. -/
theorem strict : (g'.strict k).Checks k g.unroll :=
  ⟨h.operation, h.strictAssignment, h.elementLiteral, h.strictStatements, h.conditionalArm⟩

omit h in
/-- **Every level** of the strict grammar checks that of the other one. -/
theorem strictLevel (k : Strictness) : ∀ n, (Grammar.strictLevel k n).Checks k (level n)
  | 0 => ⟨fun _ => .fail _, .fail _, .fail _, fun _ => .fail _, fun _ => .fail _⟩
  | n + 1 => (strictLevel k n).strict

end Checks

end Grammar

/-! ## Chunks -/

/-- Parse tokens with the grammar that checks more. -/
def parseStrictly (k : Strictness) (tokens : List Token) : Except ParseError Chunk :=
  let tokens := significant tokens
  let endLine := (tokens.getLast?.map Token.line).getD 1
  match ((Grammar.strictLevel k tokens.length).strictStatements k .tokens).run
    ⟨tokens, endLine, .empty⟩ with
  | .ok (body, s) => .ok ⟨s.arena, body⟩
  | .error e => .error e

/-- **A strict parse is a parse that passes**: it accepts the chunks that
are parsed and whose nodes and lists pass, as they are parsed. -/
theorem parseStrictly_eq_ok {k : Strictness} {tokens : List Token} {c : Chunk} :
    parseStrictly k tokens = .ok c ↔ parse tokens = .ok c ∧ k.Arena c.arena ∧ k.Block c.body := by
  let start : ParseState :=
    ⟨significant tokens, ((significant tokens).getLast?.map Token.line).getD 1, .empty⟩
  -- a parse is a run from the start, without its state
  have hrun (p : Parser Block) : (match p.run start with
      | .ok (body, s) => .ok ⟨s.arena, body⟩
      | .error e => .error e : Except ParseError Chunk) = .ok c ↔
      ∃ s, p start = .ok (c.body, s) ∧ s.arena = c.arena := by
    show (match p start with
      | .ok (body, s) => .ok ⟨s.arena, body⟩
      | .error e => .error e : Except ParseError Chunk) = .ok c ↔ _
    cases p start with
    | error e => simp
    | ok r =>
      obtain ⟨body, s⟩ := r
      obtain ⟨arena, cbody⟩ := c
      simp only [Except.ok.injEq, Chunk.mk.injEq, Prod.mk.injEq]
      exact ⟨fun h => ⟨s, ⟨h.2, rfl⟩, h.1⟩, fun ⟨_, ⟨hbody, hs⟩, h⟩ => ⟨hs ▸ h, hbody⟩⟩
  -- the strict grammar answers what the other does, if it passes the checks
  have hchecks := ((Grammar.Checks.strictLevel k (significant tokens).length).strictStatements
    .tokens).iff start Strictness.arena_empty c.body
  refine (hrun _).trans (Iff.trans ?_ (and_congr_left' (hrun _).symm))
  constructor
  · rintro ⟨s, hs, harena⟩
    obtain ⟨hparse, hnodes, hbody⟩ := (hchecks s).1 hs
    exact ⟨⟨s, hparse, harena⟩, harena ▸ hnodes, hbody⟩
  · rintro ⟨⟨s, hparse, harena⟩, hnodes, hbody⟩
    exact ⟨s, (hchecks s).2 ⟨hparse, harena ▸ hnodes, hbody⟩, harena⟩

end LuaSugar
