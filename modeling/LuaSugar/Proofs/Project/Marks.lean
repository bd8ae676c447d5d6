import Mathlib
import LuaSugar.Proofs.Parser.Laid
import LuaSugar.Proofs.Project.Calls
/-!
# Where calls of `require` stand

Of what is written in a list of statements, two things decide in which order
calls are reported: where each statement begins, and where the name
`require` of a call stands. These are the **marks** of a list, in written
order. In a parsed chunk the marks stand one behind the other among the
tokens (`Laid.marked`), so each call has a spot of its own
(`Marked.exists_spot`).
-/

namespace LuaSugar

open Require

variable {tokens : List Token} {a : Arena} {ρ : ExprId → ℚ} {part : Part} {parts : List Part}
variable {p m q line : ℕ}

/-! ## Marks -/

/-- What is written in a list. -/
inductive Mark where
  /-- A statement begins; it has this line. -/
  | begins (line : ℕ)
  /-- A node calls `require`. -/
  | call (site : ExprId × Call)

/-- The call that a mark is. -/
def Mark.site? : Mark → Option (ExprId × Call)
  | .begins _ => none
  | .call site => some site

/-- The call that a node of a statement on some line is. -/
def Arena.site? (a : Arena) (line : ℕ) (y : ExprId) : Option (ExprId × Call) :=
  (Call.specifier? a (a.get y)).map fun text => (y, ⟨text, line⟩)

namespace Arena

variable (a : Arena) (f : Block → List Mark)

/-- The marks of a node but for its children, if a list has the marks `f`. The
body of a literal stands where the literal does. -/
def nodeMarks (line : ℕ) (y : ExprId) : List Mark :=
  (a.site? line y).toList.map .call ++ (a.body? y).elim [] f

/-- The marks of a part. -/
def partMarks (line : ℕ) : Part → List Mark
  | .expr x | .key x => (a.descendants x).flatMap (a.nodeMarks f line)
  | .list b => f b

/-- The marks of a statement. -/
def markStep (s : Stmt) : List Mark :=
  .begins s.line :: s.kind.parts.flatMap (a.partMarks f s.line)

end Arena

/-- **The marks of a list** as they are written. -/
def Chunk.marks (c : Chunk) (l : Block) : List Mark := c.gather c.arena.markStep l

/-- The calls in a list as they are written, each with its node. -/
def Chunk.written (c : Chunk) (l : Block) : List (ExprId × Call) := (c.marks l).filterMap Mark.site?

namespace Arena

variable {f g : Block → List Mark} {x : ExprId} {e : Expr} {text : String}

theorem site?_eq_none (h : (a.get x).isSpelled = false) : a.site? line x = none := by
  rw [site?, Option.map_eq_none_iff]
  refine Option.eq_none_iff_forall_ne_some.2 fun text htext => ?_
  obtain ⟨target, arg, hcall, -⟩ := Call.specifier?_eq_some_iff.1 htext
  rw [hcall] at h
  cases h

theorem partMarks_expr (hr : a.Ranked ρ) (x : ExprId) : a.partMarks f line (.expr x) =
    (a.get x).children.flatMap (fun z => a.partMarks f line (.expr z)) ++ a.nodeMarks f line x := by
  rw [partMarks, hr.descendants_eq, List.flatMap_append, List.flatMap_assoc, List.flatMap_singleton]
  rfl

/-- The marks of a node are those of its parts, and its own. -/
theorem partMarks_node (hr : a.Ranked ρ) (h : (a.get x).isSpelled = false) :
    a.partMarks f line (.expr x) = (a.get x).parts.flatMap (a.partMarks f line) := by
  rw [partMarks_expr hr, nodeMarks, site?_eq_none h, body?]
  cases hget : a.get x with
  | arith e => simp [Expr.parts, List.flatMap_map]
  | atom atom =>
    cases atom with
    | func func => simp [Expr.children, Expr.parts, partMarks]
    | table t =>
      simp only [Expr.children, Expr.parts, Table.parts, List.flatMap_assoc, Option.toList_none,
        List.map_nil, Option.elim_none, List.append_nil]
      refine List.flatMap_congr fun entry _ => ?_
      rcases entry with ⟨key | key, value⟩ <;> simp [partMarks]
    | _ => simp [Expr.parts, List.flatMap_map]

/-- An atom without children that calls nothing has no marks. -/
theorem partMarks_leaf (hr : a.Ranked ρ) {atom : Atom} (hget : a.get x = .atom atom)
    (hchildren : (Expr.atom atom).children = []) (hbody : a.body? x = none) :
    a.partMarks f line (.expr x) = [] := by
  have hsite : a.site? line x = none := by
    rw [site?, hget]
    rfl
  rw [partMarks_expr hr, nodeMarks, hget, hchildren, hsite, hbody]
  rfl

theorem partMarks_name (hr : a.Ranked ρ) (hget : a.get x = .ofName text) :
    a.partMarks f line (.expr x) = [] :=
  partMarks_leaf hr hget rfl (by rw [body?, hget]; rfl)

theorem partMarks_string (hr : a.Ranked ρ) {bytes : List UInt8}
    (hget : a.get x = .atom (.string bytes)) : a.partMarks f line (.expr x) = [] :=
  partMarks_leaf hr hget rfl (by rw [body?, hget])

/-- The marks of a call are those of what is called and of the argument, and
its own. -/
theorem partMarks_call (hr : a.Ranked ρ) {target arg : ExprId}
    (hget : a.get x = .arith (.call target none [arg])) : a.partMarks f line (.expr x) =
      a.partMarks f line (.expr target) ++ (a.partMarks f line (.expr arg) ++
        (a.site? line x).toList.map .call) := by
  have hbody : a.body? x = none := by rw [body?, hget]
  rw [partMarks_expr hr, nodeMarks, hget, hbody]
  simp [Expr.children]

end Arena

/-! ## Marks among tokens -/

/-- At some place there is the name `require`, and behind it are parentheses
and the text in question. -/
def Spelled (tokens : List Token) (k : ℕ) (text : String) : Prop :=
  kindAt tokens k = some (.name "require") ∧ ∃ j, k < j ∧ Parens tokens (k + 1) j ∧
    kindAt tokens j = some (.string (Utf8.encode text))

/-- Marks stand one behind the other from one place to another. -/
inductive Marked (tokens : List Token) : List Mark → ℕ → ℕ → Prop
  | nil {p q : ℕ} : p ≤ q → Marked tokens [] p q
  | begins {p k q : ℕ} {marks : List Mark} : p ≤ k → Marked tokens marks k q →
      Marked tokens (.begins (lineAt tokens k) :: marks) p q
  | call {p k q : ℕ} {site : ExprId × Call} {marks : List Mark} : p ≤ k →
      Spelled tokens k site.2.specifier → Marked tokens marks (k + 1) q → Marked tokens (.call site :: marks) p q

namespace Marked

variable {marks marks' : List Mark}

theorem widen (h : Marked tokens marks p q) {p' q' : ℕ} (hp : p' ≤ p) (hq : q ≤ q') :
    Marked tokens marks p' q' := by
  induction h generalizing p' with
  | nil hle => exact .nil (hp.trans (hle.trans hq))
  | begins hle _ ih => exact .begins (hp.trans hle) (ih le_rfl hq)
  | call hle hspelled _ ih => exact .call (hp.trans hle) hspelled (ih le_rfl hq)

theorem append (h : Marked tokens marks p m) (h' : Marked tokens marks' m q) :
    Marked tokens (marks ++ marks') p q := by
  induction h with
  | nil hle => exact h'.widen hle le_rfl
  | begins hle _ ih => exact .begins hle (ih h')
  | call hle hspelled _ ih => exact .call hle hspelled (ih h')

end Marked

/-- Where a name stands that is laid, but for parentheses around it. -/
theorem Laid.name_at {x : ExprId} {text : String} (hget : a.get x = .ofName text) :
    ∀ {p q}, Laid tokens a (.expr x) p q → ∃ k, p ≤ k ∧ k < q ∧
      kindAt tokens k = some (.name text) ∧ Parens tokens (k + 1) q
  | p, _, .name _ hname hkind => by
    obtain rfl : text = _ := by simpa [Expr.ofName] using hget.symm.trans hname
    exact ⟨p, le_rfl, Nat.lt_succ_self p, hkind, fun k hk hk' => absurd hk' (by omega)⟩
  | _, _, .string _ hstring _ => by simp [Expr.ofName, hstring] at hget
  | _, _, .call _ hcall _ _ _ _ _ => by simp [Expr.ofName, hcall] at hget
  | _, _, .node _ hspelled _ => by simp [Expr.ofName, hget, Expr.isSpelled] at hspelled
  | _, _, .parens _ h hclose => by
    obtain ⟨k, hk, hkq, hkind, hparens⟩ := h.name_at hget
    refine ⟨k, (Nat.le_succ _).trans hk, hkq.trans (Nat.lt_succ_self _), hkind, fun j hj hjq => ?_⟩
    rcases Nat.lt_succ_iff_lt_or_eq.1 hjq with hjq | rfl
    · exact hparens j hj hjq
    · exact .inr hclose

/-- Where a string stands that is laid, but for parentheses around it. -/
theorem Laid.string_at {x : ExprId} {bytes : List UInt8} (hget : a.get x = .atom (.string bytes)) :
    ∀ {p q}, Laid tokens a (.expr x) p q → ∃ k, p ≤ k ∧ k < q ∧
      kindAt tokens k = some (.string bytes) ∧ Parens tokens p k
  | _, _, .name _ hname _ => by simp [hname] at hget
  | p, _, .string _ hstring hkind => by
    obtain rfl : bytes = _ := by simpa using hget.symm.trans hstring
    exact ⟨p, le_rfl, Nat.lt_succ_self p, hkind, fun k hk hk' => absurd hk' (by omega)⟩
  | _, _, .call _ hcall _ _ _ _ _ => by simp [hcall] at hget
  | _, _, .node _ hspelled _ => by simp [hget, Expr.isSpelled] at hspelled
  | _, _, .parens hopen h _ => by
    obtain ⟨k, hk, hkq, hkind, hparens⟩ := h.string_at hget
    refine ⟨k, (Nat.le_succ _).trans hk, hkq.trans (Nat.lt_succ_self _), hkind, fun j hj hjk => ?_⟩
    rcases Nat.eq_or_lt_of_le hj with rfl | hj
    · exact .inl hopen
    · exact hparens j hj hjk

/-- The mark of a call whose parts are laid. -/
theorem Laid.call_marked (hr : a.Ranked ρ) {x target arg : ExprId} {m' n : ℕ}
    (hget : a.get x = .arith (.call target none [arg])) (htarget : Laid tokens a (.expr target) p m)
    (hle : m ≤ m') (hparens : Parens tokens m m') (harg : Laid tokens a (.expr arg) m' n)
    (hn : n ≤ q) {f : Block → List Mark}
    (h : Marked tokens (a.partMarks f line (.expr target)) p m)
    (h' : Marked tokens (a.partMarks f line (.expr arg)) m' n) :
    Marked tokens (a.partMarks f line (.expr x)) p q := by
  rw [Arena.partMarks_call hr hget]
  cases hsite : a.site? line x with
  | none => exact h.append ((h'.widen hle hn).append (.nil le_rfl))
  | some site =>
    obtain ⟨text, htext, rfl⟩ := Option.map_eq_some_iff.1 hsite
    obtain ⟨target', arg', hcall, hname, hstring⟩ := Call.specifier?_eq_some_iff.1 htext
    obtain ⟨rfl, rfl⟩ : target = target' ∧ arg = arg' := by simpa using hget.symm.trans hcall
    obtain ⟨k, hpk, hkm, hrequire, hbehind⟩ := htarget.name_at hname
    obtain ⟨j, hmj, hjn, htext, hbefore⟩ := harg.string_at hstring
    rw [Arena.partMarks_name hr hname, Arena.partMarks_string hr hstring]
    refine .call hpk ⟨hrequire, j, by omega, fun i hi hij => ?_, htext⟩ (.nil (by omega))
    -- behind the name, between it and the argument, or before the text
    rcases Nat.lt_or_ge i m with him | him
    · exact hbehind i hi him
    · rcases Nat.lt_or_ge i m' with him' | him'
      · exact hparens i him him'
      · exact hbefore i him' hij

mutual

/-- **What is laid is marked**, as deep as one goes. -/
theorem Laid.marked (hr : a.Ranked ρ) (d line : ℕ) : ∀ {part p q}, Laid tokens a part p q →
    Marked tokens (a.partMarks (Block.gather a.markStep d) line part) p q
  | _, _, _, .name _ hget _ => by
    rw [Arena.partMarks_name hr hget]
    exact .nil (Nat.le_succ _)
  | _, _, _, .string _ hget _ => by
    rw [Arena.partMarks_string hr hget]
    exact .nil (Nat.le_succ _)
  | _, _, _, .call _ hget h hle hparens h' hle' =>
    Laid.call_marked hr hget h hle hparens h' hle' (h.marked hr d line) (h'.marked hr d line)
  | _, _, _, .node _ hspelled h => by
    rw [Arena.partMarks_node hr hspelled]
    exact h.marked hr d line
  | _, _, _, .parens _ h _ => (h.marked hr d line).widen (Nat.le_succ _) (Nat.le_succ _)
  | _, _, _, .named _ hget _ => by
    rw [show a.partMarks _ line (.key _) = _ from Arena.partMarks_string hr hget]
    exact .nil (Nat.le_succ _)
  | _, _, _, .key h => h.marked hr d line
  | _, _, _, .list h => h.marked hr d

theorem LaidAll.marked (hr : a.Ranked ρ) (d line : ℕ) : ∀ {parts p q}, LaidAll tokens a parts p q →
    Marked tokens (parts.flatMap (a.partMarks (Block.gather a.markStep d) line)) p q
  | _, _, _, .nil hle => .nil hle
  | _, _, _, .cons hle h h' => ((h.marked hr d line).widen hle le_rfl).append (h'.marked hr d line)

theorem LaidList.marked (hr : a.Ranked ρ) : ∀ (d : ℕ) {l p q}, LaidList tokens a l p q →
    Marked tokens (Block.gather a.markStep d l) p q
  | 0, _, _, _, h => .nil h.le
  | _ + 1, _, _, _, .nil hle => .nil hle
  | d + 1, _, _, _, .cons (s := s) hle hline h h' => by
    have hbegins := Marked.begins hle (h.marked hr d s.line)
    rw [← hline] at hbegins
    exact hbegins.append (h'.marked hr (d + 1))

end

/-! ## Marks of a chunk -/

theorem Arena.enters_markStep (a : Arena) : a.Enters a.markStep := by
  intro f g s hfg
  unfold markStep
  refine congrArg _ (List.flatMap_congr fun part hpart => ?_)
  rcases List.mem_append.1 (s.kind.woven.perm.mem_iff.1 hpart) with hpart | hpart
  · obtain ⟨b, hb, rfl⟩ := List.mem_map.1 hpart
    exact hfg b (.inl hb)
  · obtain ⟨x, hx, rfl⟩ := List.mem_map.1 hpart
    refine List.flatMap_congr fun y hy => congrArg (_ ++ ·) ?_
    cases hbody : a.body? y with
    | none => rfl
    | some b => exact hfg b (.inr ⟨x, hx, y, hy, hbody⟩)

namespace Chunk

variable {c : Chunk} {V : Vocabulary} {R : Prop} {l : Block}

theorem marks_eq (h : c.Sound V R) (hl : c.HasList l) :
    c.marks l = l.flatMap (c.arena.markStep c.marks) :=
  gather_eq h c.arena.enters_markStep hl

/-- The calls that a walk finds in a list. -/
def found (c : Chunk) (l : Block) : List (ExprId × Call) :=
  (c.route l).flatMap fun p => (c.arena.descendants p.1).filterMap (c.arena.site? p.2.line)

/-- The calls that a walk finds at a statement: those in its lists come first,
and those in the literals below a root before those of the root. -/
def findStep (c : Chunk) (s : Stmt) : List (ExprId × Call) :=
  s.kind.blocks.flatMap c.found ++ s.kind.roots.flatMap fun x =>
    c.arena.bodies c.found x ++ (c.arena.descendants x).filterMap (c.arena.site? s.line)

theorem found_eq (h : c.Sound V R) (hl : c.HasList l) : c.found l = l.flatMap c.findStep := by
  have hbodies (x : ExprId) : (c.arena.bodies c.route x).flatMap (fun p =>
      (c.arena.descendants p.1).filterMap (c.arena.site? p.2.line)) = c.arena.bodies c.found x := by
    rw [Arena.bodies, Arena.bodies, List.flatMap_assoc]
    refine List.flatMap_congr fun y _ => ?_
    cases c.arena.body? y <;> rfl
  rw [found, route_eq h hl, List.flatMap_assoc]
  refine List.flatMap_congr fun s _ => ?_
  rw [Arena.routeStep, List.flatMap_append, List.flatMap_assoc, List.flatMap_assoc, findStep]
  simp only [List.flatMap_append, hbodies, List.flatMap_singleton]
  rfl

/-- What is written at a statement, part by part. -/
theorem filterMap_markStep (c : Chunk) (s : Stmt) :
    (c.arena.markStep c.marks s).filterMap Mark.site? = s.kind.parts.flatMap fun part =>
      (c.arena.partMarks c.marks s.line part).filterMap Mark.site? := by
  rw [Arena.markStep, List.filterMap_cons, Mark.site?, List.filterMap_flatMap]

/-- What is written below a root: each node, and the bodies of literals. -/
theorem filterMap_partMarks (c : Chunk) (line : ℕ) (x : ExprId) :
    (c.arena.partMarks c.marks line (.expr x)).filterMap Mark.site? =
      (c.arena.descendants x).flatMap fun y =>
        (c.arena.site? line y).toList ++ (c.arena.body? y).elim [] c.written := by
  rw [Arena.partMarks, List.filterMap_flatMap]
  refine List.flatMap_congr fun y _ => ?_
  rw [Arena.nodeMarks, List.filterMap_append]
  congr 1
  · cases c.arena.site? line y <;> rfl
  · cases c.arena.body? y <;> rfl

/-- **What is written is found**, in another order. -/
theorem written_perm (h : c.Sound V R) (hl : c.HasList l) : (c.written l).Perm (c.found l) := by
  refine list_induction (P := fun l => (c.written l).Perm (c.found l)) h (fun l hl ih => ?_) hl
  rw [written, marks_eq h hl, found_eq h hl, List.filterMap_flatMap]
  refine List.Perm.flatMap_left l fun s hs => ?_
  rw [filterMap_markStep]
  refine (s.kind.woven.perm.flatMap_right _).trans ?_
  rw [List.flatMap_append, List.flatMap_map, List.flatMap_map, findStep]
  refine List.Perm.append (List.Perm.flatMap_left _ fun b hb => ih s hs b (.inl hb))
    (List.Perm.flatMap_left _ fun x hx => ?_)
  rw [filterMap_partMarks, List.filterMap_eq_flatMap_toList]
  refine (List.Perm.flatMap_left _ fun y hy => ?_).trans
    (List.perm_append_comm.trans (List.flatMap_append_perm _ _ _)).symm
  refine List.Perm.append_left _ ?_
  cases hbody : c.arena.body? y with
  | none => exact .refl _
  | some b => exact ih s hs b (.inr ⟨x, hx, y, hy, hbody⟩)

end Chunk

/-! ## Spots -/

/-- Of two marks in written order: the second call stands behind the first,
and the second line is not before the first. -/
def Mark.Before (spot : ExprId → ℕ) : Mark → Mark → Prop
  | .call x, .call y => spot x.1 < spot y.1
  | .begins n, .begins n' => n ≤ n'
  | _, _ => True

theorem lineAt_mono (h : tokens.Pairwise fun t u => t.line ≤ u.line) (hle : p ≤ q) :
    lineAt tokens p ≤ lineAt tokens q := by
  cases hlast : tokens.getLast? with
  | none => simp [List.getLast?_eq_none_iff.1 hlast, lineAt]
  | some last =>
    have hne : tokens ≠ [] := fun hnil => by simp [hnil] at hlast
    have hpos := List.length_pos_iff.2 hne
    -- behind the last token its line goes on
    have hat (k : ℕ) : lineAt tokens k =
        (tokens.get ⟨min k (tokens.length - 1), by omega⟩).line := by
      rw [List.getLast?_eq_getElem?] at hlast
      rcases Nat.lt_or_ge k tokens.length with hk | hk
      · simp [lineAt, List.getElem?_eq_getElem hk, show min k (tokens.length - 1) = k by omega]
      · have hmin : min k (tokens.length - 1) = tokens.length - 1 := by omega
        simp [lineAt, List.getElem?_eq_none hk, List.getLast?_eq_getElem?, hmin,
          List.getElem?_eq_getElem (show tokens.length - 1 < tokens.length by omega)]
    have : Std.Refl fun t u : Token => t.line ≤ u.line := ⟨fun _ => le_rfl⟩
    rw [hat, hat]
    exact h.rel_get_of_le (Fin.mk_le_mk.2 (by omega))

/-- **Calls that are marked have spots.** -/
theorem Marked.exists_spot {marks : List Mark} (hlines : tokens.Pairwise fun t u => t.line ≤ u.line)
    (h : Marked tokens marks p q) (hnodup : ((marks.filterMap Mark.site?).map Prod.fst).Nodup) :
    ∃ spot : ExprId → ℕ, (∀ x, .call x ∈ marks → p ≤ spot x.1 ∧
        Spelled tokens (spot x.1) x.2.specifier) ∧
      (∀ n, .begins n ∈ marks → lineAt tokens p ≤ n) ∧ marks.Pairwise (Mark.Before spot) := by
  induction h with
  | nil => exact ⟨fun _ => 0, by simp, by simp, .nil⟩
  | @begins p k q marks hle _ ih =>
    obtain ⟨spot, hcalls, hbegins, hbefore⟩ := ih hnodup
    refine ⟨spot, fun x hx => ?_, fun n hn => ?_, List.pairwise_cons.2 ⟨fun w hw => ?_, hbefore⟩⟩
    · rcases List.mem_cons.1 hx with hx | hx
      · cases hx
      · exact ⟨hle.trans (hcalls x hx).1, (hcalls x hx).2⟩
    · rcases List.mem_cons.1 hn with hn | hn
      · cases hn
        exact lineAt_mono hlines hle
      · exact (lineAt_mono hlines hle).trans (hbegins n hn)
    · cases w with
      | begins n => exact hbegins n hw
      | call x => trivial
  | @call p k q site marks hle hspelled _ ih =>
    rw [List.filterMap_cons, Mark.site?, List.map_cons, List.nodup_cons] at hnodup
    obtain ⟨spot, hcalls, hbegins, hbefore⟩ := ih hnodup.2
    -- the first call is not among the others, which keep their spots
    have hother : ∀ x, .call x ∈ marks → Function.update spot site.1 k x.1 = spot x.1 := by
      refine fun x hx => Function.update_of_ne (fun heq => hnodup.1 ?_) _ _
      exact List.mem_map.2 ⟨x, List.mem_filterMap.2 ⟨.call x, hx, rfl⟩, heq⟩
    refine ⟨Function.update spot site.1 k, fun x hx => ?_, fun n hn => ?_,
      List.pairwise_cons.2 ⟨fun w hw => ?_, hbefore.imp_of_mem fun {w w'} hw hw' h => ?_⟩⟩
    · rcases List.mem_cons.1 hx with hx | hx
      · cases hx
        rw [Function.update_self]
        exact ⟨hle, hspelled⟩
      · rw [hother x hx]
        exact ⟨hle.trans ((Nat.le_succ k).trans (hcalls x hx).1), (hcalls x hx).2⟩
    · rcases List.mem_cons.1 hn with hn | hn
      · cases hn
      · exact (lineAt_mono hlines (hle.trans (Nat.le_succ k))).trans (hbegins n hn)
    · cases w with
      | begins n => trivial
      | call x =>
        show Function.update spot site.1 k site.1 < Function.update spot site.1 k x.1
        rw [Function.update_self, hother x hw]
        exact (hcalls x hw).1
    · cases w with
      | begins n => cases w' <;> exact h
      | call x =>
        cases w' with
        | begins n => trivial
        | call y =>
          show Function.update spot site.1 k x.1 < Function.update spot site.1 k y.1
          rw [hother x hw, hother y hw']
          exact h

end LuaSugar
