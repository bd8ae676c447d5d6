import Mathlib
import LuaSugar.Proofs.Parser.Laid
import LuaSugar.Proofs.Syntax.Load
import LuaSugar.Proofs.Parser.Advancing
import LuaSugar.Proofs.Desugar.Scope
/-!
# Where statements begin

Everything in a parsed chunk has its place among the tokens, since all of its
arena can be reached from its body. So each of its statements, however deep
in lists and literals, is on the line of a token, and so is whatever a parser
reports from the place where it stands.
-/

namespace LuaSugar

variable {tokens : List Token} {a : Arena} {part : Part} {parts : List Part} {p q : ℕ}

/-- Children are parts. -/
theorem Expr.mem_parts_of_mem_children {e : Expr} {x : ExprId} (h : x ∈ e.children) :
    .expr x ∈ e.parts ∨ .key x ∈ e.parts := by
  unfold Expr.parts
  split
  · rename_i t
    obtain ⟨⟨key, value⟩, hentry, hx⟩ := List.mem_flatMap.1 h
    cases key with
    | positional _ =>
      obtain rfl := List.mem_singleton.1 hx
      exact .inl (List.mem_flatMap.2 ⟨_, hentry, List.mem_cons_self⟩)
    | expr key =>
      rcases List.mem_pair.1 hx with rfl | rfl
      · exact .inr (List.mem_flatMap.2 ⟨_, hentry, List.mem_cons_self⟩)
      · exact .inl (List.mem_flatMap.2 ⟨_, hentry, List.mem_cons_of_mem _ List.mem_cons_self⟩)
  · cases h
  · exact .inl (List.mem_map_of_mem h)

theorem LaidAll.of_mem : ∀ {parts : List Part} {p q}, LaidAll tokens a parts p q → part ∈ parts →
    ∃ m n, Laid tokens a part m n
  | _ :: _, _, _, .cons _ h h', hmem => (List.mem_cons.1 hmem).elim (fun heq => ⟨_, _, heq ▸ h⟩)
      h'.of_mem

/-- A statement that is laid, at every depth, begins at a token. -/
theorem LaidList.line : ∀ {l : Block} {p q}, LaidList tokens a l p q → ∀ s ∈ l,
    (∃ m, s.line = lineAt tokens m) ∧ ∃ m n, LaidAll tokens a s.kind.parts m n
  | _ :: _, _, _, .cons _ hline h h', s, hmem => (List.mem_cons.1 hmem).elim
      (fun heq => heq ▸ ⟨⟨_, hline⟩, _, _, h⟩) (h'.line s)

/-- A node that is written somewhere, or is the key of an entry that is. -/
def Placed (tokens : List Token) (a : Arena) (x : ExprId) : Prop :=
  ∃ p q, Laid tokens a (.key x) p q

theorem Placed.of_mem {x : ExprId} (h : LaidAll tokens a parts p q)
    (hx : .expr x ∈ parts ∨ .key x ∈ parts) : Placed tokens a x := by
  rcases hx with hx | hx
  · obtain ⟨m, n, hlaid⟩ := h.of_mem hx
    exact ⟨m, n, .key hlaid⟩
  · exact h.of_mem hx

/-- What a node holds directly is written somewhere, its body too. -/
def Furnished (tokens : List Token) (a : Arena) (x : ExprId) : Prop :=
  (∀ y ∈ (a.get x).children, Placed tokens a y) ∧
    ∀ body, a.body? x = some body → ∃ m n, LaidList tokens a body m n

theorem furnished_of_parts {x : ExprId} {e : Expr} (he : a.get x = e)
    (h : LaidAll tokens a e.parts p q) : Furnished tokens a x := by
  refine ⟨fun y hy => .of_mem h (Expr.mem_parts_of_mem_children (he ▸ hy)), fun body hbody => ?_⟩
  obtain ⟨func, hget, rfl⟩ := Arena.body?_eq_some.1 hbody
  obtain rfl : e = .atom (.func func) := he.symm.trans hget
  obtain ⟨m, n, hlaid⟩ := h.of_mem List.mem_cons_self
  cases hlaid with
  | list hlist => exact ⟨m, n, hlist⟩

/-- **The parts of a node** that is written somewhere. -/
theorem Laid.furnished {x : ExprId} : ∀ {part : Part} {p q : ℕ}, Laid tokens a part p q →
    part = .expr x ∨ part = .key x → Furnished tokens a x
  | _, _, _, .name _ hget _, .inl rfl | _, _, _, .string _ hget _, .inl rfl
  | _, _, _, .named _ hget _, .inr rfl => furnished_of_parts hget (.nil (Nat.zero_le 0))
  | _, _, _, .call _ hget h hle _ h' hle', .inl rfl =>
    furnished_of_parts hget (.cons le_rfl h (.cons hle h' (.nil hle')))
  | _, _, _, .node _ _ h, .inl rfl => furnished_of_parts rfl h
  | _, _, _, .parens _ h _, .inl rfl => h.furnished (.inl rfl)
  | _, _, _, .key h, .inr rfl => h.furnished (.inl rfl)

/-- Statements and ids at every depth of a list that is written somewhere. -/
theorem LaidList.deep {l : Block} (h : LaidList tokens a l p q) : ∀ s ∈ Block.deep l,
    (∃ m, s.line = lineAt tokens m) ∧ ∀ x ∈ s.kind.roots, Placed tokens a x := by
  induction l using Block.induction generalizing p q with
  | step l ih =>
    intro s hs
    obtain ⟨t, ht, hs⟩ := Block.mem_deep.1 hs
    obtain ⟨hline, m, n, hparts⟩ := h.line t ht
    rcases hs with rfl | ⟨b, hb, hs⟩
    · exact ⟨hline, fun x hx => .of_mem hparts (.inl (StmtKind.expr_mem_parts hx))⟩
    · obtain ⟨m', n', hlaid⟩ := hparts.of_mem (StmtKind.list_mem_parts hb)
      cases hlaid with
      | list hlist => exact ih t ht b hb hlist s hs

theorem LaidList.placed {l : Block} (h : LaidList tokens a l p q) {x : ExprId}
    (hx : x ∈ Block.ids l) : Placed tokens a x := by
  obtain ⟨s, hs, hroot⟩ := List.mem_flatMap.1 hx
  exact (h.deep s hs).2 x hroot

/-- **What a node refers to** is written where the node is. -/
theorem Placed.refers {x y : ExprId} (h : Placed tokens a x) (hxy : a.Refers x y) :
    Placed tokens a y := by
  obtain ⟨p, q, hlaid⟩ := h
  obtain ⟨hchildren, hbody⟩ := hlaid.furnished (.inr rfl)
  rcases List.mem_append.1 hxy with hy | hy
  · exact hchildren y hy
  · split at hy
    · rename_i func hget
      obtain ⟨m, n, hlist⟩ := hbody _ (Arena.body?_eq_some.2 ⟨func, hget, rfl⟩)
      exact hlist.placed hy
    · simp at hy

/-! ## Parsed chunks -/

theorem parse_list {c : Chunk} (h : parse tokens = .ok c) :
    ∃ m n, LaidList (significant tokens) c.arena c.body m n := by
  obtain ⟨q, hlaid⟩ := parse_laid h
  obtain ⟨m, n, hbody⟩ := hlaid.of_mem List.mem_cons_self
  cases hbody with
  | list hlist => exact ⟨m, n, hlist⟩

/-- All that a parsed chunk holds is written somewhere. -/
theorem parse_placed {c : Chunk} (h : parse tokens = .ok c) {x : ExprId}
    (hx : x.index < c.arena.size) : Placed (significant tokens) c.arena x := by
  obtain ⟨m, n, hlist⟩ := parse_list h
  obtain ⟨y, hy, hyx⟩ := parse_reaches h hx
  clear hx
  induction hyx with
  | refl => exact hlist.placed hy
  | tail _ hij ih => exact ih.refers hij

/-- **Each statement of a parsed chunk** is on the line of the token that it
begins with, in the body and in the bodies of literals. -/
theorem parse_begins {c : Chunk} (h : parse tokens = .ok c) :
    (∀ s ∈ Block.deep c.body, ∃ m, s.line = lineAt (significant tokens) m) ∧
    ∀ x body, c.arena.body? x = some body → ∀ s ∈ Block.deep body,
      ∃ m, s.line = lineAt (significant tokens) m := by
  refine ⟨fun s hs => ?_, fun x body hbody s hs => ?_⟩
  · obtain ⟨m, n, hlist⟩ := parse_list h
    exact (hlist.deep s hs).1
  · obtain ⟨p, q, hlaid⟩ := parse_placed h (Arena.inside_of_body? hbody)
    obtain ⟨m, n, hlist⟩ := (hlaid.furnished (.inr rfl)).2 body hbody
    exact (hlist.deep s hs).1

/-! ## Lines of places -/

/-- A place is on the line of a token, unless there are none. -/
theorem lineAt_cases (tokens : List Token) (p : ℕ) :
    lineAt tokens p = 1 ∨ ∃ t ∈ tokens, lineAt tokens p = t.line := by
  unfold lineAt
  cases hp : tokens[p]?.or tokens.getLast? with
  | none => exact .inl rfl
  | some t =>
    refine .inr ⟨t, ?_, rfl⟩
    rcases Option.or_eq_some_iff.1 hp with hp | ⟨-, hp⟩
    · exact List.mem_of_getElem? hp
    · exact List.mem_of_getLast? hp

/-- Where a parser comes to is a place among the tokens. -/
theorem ParseState.Takes.here_eq {s : ParseState} {n : ℕ}
    (h : (ParseState.start tokens).Takes n s) : ∃ p, s.here = lineAt (significant tokens) p := by
  obtain ⟨p, hp⟩ : ∃ p, s.rest = (significant tokens).drop p :=
    ⟨_, List.suffix_iff_eq_drop.1 h.rest⟩
  exact ⟨p, ParseState.Stands.here ⟨hp, h.endLine⟩⟩

end LuaSugar
