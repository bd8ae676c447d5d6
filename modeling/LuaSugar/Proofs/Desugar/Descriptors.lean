import Mathlib
import LuaSugar.Proofs.Desugar.Expansion
/-!
# Descriptors and the variables they are about

Behind a declaration that an intrinsic decorates stands a call of the
intrinsic with a table for each name, and in each table a function to get
the variable and one to set it. Which variable a name stands for in such a
function is a matter of scope: one of its own parameters, if that has the
name, and else the last of that name in the declaration.

So a getter, which has no parameters, returns its variable unless a later
one of the declaration has the same name. A setter has the parameter `v`:
what is assigned to a variable `v` is assigned to the parameter.
-/

namespace LuaSugar

namespace Intrinsic

/-! ## Scope -/

/-- A variable that a function behind a declaration may name: one of its
parameters, or one that is declared. -/
inductive Variable
  | parameter (i : ℕ)
  | declared (i : ℕ)

/-- A name at a position, and at none behind it. -/
def LastAt (names : List String) (i : ℕ) (name : String) : Prop :=
  names[i]? = some name ∧ name ∉ names.drop (i + 1)

/-- Which variable a name stands for in a function with such parameters
behind a declaration of `names`. -/
inductive StandsFor (names params : List String) (name : String) : Variable → Prop
  | parameter {i} : LastAt params i name → StandsFor names params name (.parameter i)
  | declared {i} : name ∉ params → LastAt names i name → StandsFor names params name (.declared i)

section Scope

variable {names params : List String} {name : String} {i j : ℕ} {v u : Variable}

theorem LastAt.mem (h : LastAt names i name) : name ∈ names := List.mem_of_getElem? h.1

theorem LastAt.le (h : LastAt names i name) (hj : names[j]? = some name) : j ≤ i := by
  by_contra hlt
  refine h.2 (List.mem_of_getElem? (i := j - (i + 1)) ?_)
  rw [List.getElem?_drop, ← hj]
  congr 1
  omega

theorem StandsFor.unique (h : StandsFor names params name v) (h' : StandsFor names params name u) :
    v = u := by
  cases h with
  | parameter h =>
    cases h' with
    | parameter h' => rw [le_antisymm (h'.le h.1) (h.le h'.1)]
    | declared hfree _ => exact absurd h.mem hfree
  | declared hfree h =>
    cases h' with
    | parameter h' => exact absurd h'.mem hfree
    | declared _ h' => rw [le_antisymm (h'.le h.1) (h.le h'.1)]

end Scope

/-! ## Functions and tables -/

variable {a : Arena} {names : List String} {name : String} {line i : ℕ} {table get set : ExprId}
variable {v u : Variable}

/-- A function literal that only returns a variable. -/
def Returns (a : Arena) (names : List String) (f : ExprId) (v : Variable) : Prop :=
  ∃ func read line name, a.get f = .atom (.func func) ∧ func.body = [.ret [read] line] ∧
    a.get read = .ofName name ∧ StandsFor names func.params name v

/-- A function literal that only assigns one variable to another. -/
def Assigns (a : Arena) (names : List String) (f : ExprId) (v u : Variable) : Prop :=
  ∃ func target value line name name', a.get f = .atom (.func func) ∧
    func.body = [.assign [target] [value] line] ∧ a.get target = .ofName name ∧
    a.get value = .ofName name' ∧ StandsFor names func.params name v ∧
    StandsFor names func.params name' u

/-- A table of named values, in order. -/
def Entries (a : Arena) (table : ExprId) (entries : List (String × ExprId)) : Prop :=
  ∃ t : Table, a.get table = .atom (.table t) ∧
    List.Forall₂ (fun entry named => ∃ key, entry = (.expr key, named.2) ∧
      a.get key = .ofText named.1) t.entries entries

theorem ofName_injective {name name' : String} (h : Expr.ofName name = .ofName name') :
    name = name' := by
  simpa [Expr.ofName] using h

/-- **A getter** returns the last variable of its name. -/
theorem Gets.returns_iff (h : Gets a.Is line name get) :
    Returns a names get v ↔ StandsFor names [] name v := by
  obtain ⟨read, hget, hread⟩ := h
  constructor
  · rintro ⟨func, read', line', name', hfunc, hbody, hread', hv⟩
    obtain rfl : func = _ := by simpa using hfunc.symm.trans hget
    simp only [Stmt.ret, List.cons.injEq, Stmt.mk.injEq, StmtKind.ret.injEq, and_true] at hbody
    obtain ⟨rfl, -⟩ := hbody
    obtain rfl := ofName_injective (hread'.symm.trans hread)
    exact hv
  · exact fun hv => ⟨_, read, line, name, hget, rfl, hread, hv⟩

/-- **A setter** assigns its argument to the last variable of its name, of
which its parameter is one. -/
theorem Sets.assigns_iff (h : Sets a.Is line name set) :
    Assigns a names set v u ↔ StandsFor names ["v"] name v ∧ u = .parameter 0 := by
  have hparameter : StandsFor names ["v"] "v" (.parameter 0) := .parameter ⟨rfl, by simp⟩
  obtain ⟨target, value, hset, htarget, hvalue⟩ := h
  constructor
  · rintro ⟨func, target', value', line', name', name'', hfunc, hbody, htarget', hvalue', hv, hu⟩
    obtain rfl : func = _ := by simpa using hfunc.symm.trans hset
    simp only [Stmt.assign, List.cons.injEq, Stmt.mk.injEq, StmtKind.assign.injEq, and_true]
      at hbody
    obtain ⟨⟨rfl, rfl⟩, -⟩ := hbody
    obtain rfl := ofName_injective (htarget'.symm.trans htarget)
    obtain rfl := ofName_injective (hvalue'.symm.trans hvalue)
    exact ⟨hv, hu.unique hparameter⟩
  · rintro ⟨hv, rfl⟩
    exact ⟨_, target, value, line, name, "v", hset, rfl, htarget, hvalue, hv, hparameter⟩

/-- **The table of the variable at a position.** Its getter returns that
variable if and only if no later one has the name, and its setter assigns
to it if and only if it is not named like the setter's parameter either. -/
theorem Describes.accesses (h : Describes a.Is line name table) (hname : names[i]? = some name) :
    ∃ label get set, Entries a table [("name", label), ("get", get), ("set", set)] ∧
      a.get label = .ofText name ∧
      (Returns a names get (.declared i) ↔ name ∉ names.drop (i + 1)) ∧
      (Assigns a names set (.declared i) (.parameter 0) ↔
        name ∉ names.drop (i + 1) ∧ name ≠ "v") ∧
      (name = "v" → Assigns a names set (.parameter 0) (.parameter 0)) := by
  obtain ⟨nameKey, label, getKey, get, setKey, set, htable, ⟨hname', hgetKey, hsetKey⟩, hlabel,
    hget, hset⟩ := h
  refine ⟨label, get, set, ⟨_, htable, .cons ⟨nameKey, rfl, hname'⟩ (.cons ⟨getKey, rfl, hgetKey⟩
    (.cons ⟨setKey, rfl, hsetKey⟩ .nil))⟩, hlabel, ?_, ?_, ?_⟩
  · rw [hget.returns_iff]
    constructor
    · rintro (_ | ⟨-, hlast⟩)
      exact hlast.2
    · exact fun hlast => .declared (by simp) ⟨hname, hlast⟩
  · rw [hset.assigns_iff]
    constructor
    · rintro ⟨_ | ⟨hfree, hlast⟩, -⟩
      exact ⟨hlast.2, by simpa using hfree⟩
    · exact fun hlast => ⟨.declared (by simpa using hlast.2) ⟨hname, hlast.1⟩, rfl⟩
  · rintro rfl
    exact hset.assigns_iff.2 ⟨.parameter ⟨rfl, by simp⟩, rfl⟩

end Intrinsic

/-! ## Parsed chunks -/

open Intrinsic

variable {tokens : List Token} {c c' : Chunk}

/-- **Descriptors.** Wherever an intrinsic stands before a local declaration
in a parsed chunk, also after other passes, a call of it with its arguments
and a table for each name stands behind the declaration if the pass
succeeds; what comes before and after is what those statements expand to.
Each table has the name, a function that returns the variable, and one
that assigns its argument to it: to the very variable of the declaration
unless a later one has the same name or, for the latter, the name is `v`,
which is the function's own parameter. The intrinsic and its arguments are
the nodes they were, with the bodies of their literals expanded. -/
theorem expandIntrinsics_descriptors (h : parse tokens = .ok c) (passes : List ChunkPass)
    (hsuccess : expandIntrinsics (c.passed passes) = (c', none)) {l before after : Block}
    {e : ExprId} {args : List ExprId} {line : ℕ} {names : List String} {values : List ExprId}
    {line' : ℕ} (hlist : (c.passed passes).HasList l)
    (hsplit : l =
      before ++ ⟨.intrinsic e args, line⟩ :: ⟨.localDecl names values, line'⟩ :: after) :
    ∃ before' call tables after',
      c'.HasList (before' ++
        .ignore line :: ⟨.localDecl names values, line'⟩ :: .call call line' :: after') ∧
      Expands c'.arena before before' ∧ Expands c'.arena after after' ∧
      c'.arena.get call = .call e (args ++ tables) ∧
      (∀ i : ExprId, i.index < (c.passed passes).arena.size →
        (c'.arena.get i).hollow = ((c.passed passes).arena.get i).hollow) ∧
      tables.length = names.length ∧ ∀ i name table, names[i]? = some name →
        tables[i]? = some table → ∃ label get set,
          Entries c'.arena table [("name", label), ("get", get), ("set", set)] ∧
          c'.arena.get label = .ofText name ∧
          (Returns c'.arena names get (.declared i) ↔ name ∉ names.drop (i + 1)) ∧
          (Assigns c'.arena names set (.declared i) (.parameter 0) ↔
            name ∉ names.drop (i + 1) ∧ name ≠ "v") ∧
          (name = "v" → Assigns c'.arena names set (.parameter 0) (.parameter 0)) := by
  obtain ⟨hhollow, -, hlists⟩ :=
    expandIntrinsics_expands ((parse_chunk_sound h).passed passes) hsuccess
  obtain ⟨l', hl', hexpands⟩ := hlists l hlist
  -- the list is expanded around the two statements, and these by one rule
  obtain ⟨before', body, left, next', inserted, after', rfl, hbefore, hafter, hmakes⟩ :=
    hexpands.split hsplit
  cases hmakes with
  | @declaration _ _ _ call tables hcall htables =>
    refine ⟨before', call, tables, after', hl', hbefore, hafter, hcall, hhollow,
      htables.length_eq.symm, fun i name table hname htable => ?_⟩
    -- the table at a name describes that name, so it says what it accesses
    have hdescribes : Describes c'.arena.Is line' name table := by
      obtain ⟨hi, rfl⟩ := List.getElem?_eq_some_iff.1 hname
      obtain ⟨hi', rfl⟩ := List.getElem?_eq_some_iff.1 htable
      exact (List.forall₂_iff_get.1 htables).2 i hi hi'
    exact hdescribes.accesses hname

/-- How many arguments a decorator has, the names of the declaration behind
it, and the lines of both. -/
def Block.decoration? : Block → Option (ℕ × List String × ℕ × ℕ)
  | [⟨.intrinsic _ args, line⟩, ⟨.localDecl names _, line'⟩] =>
    some (args.length, names, line, line')
  | _ => none

theorem Block.exists_of_decoration? {body : Block} {count line line' : ℕ} {names : List String}
    (h : body.decoration? = some (count, names, line, line')) : ∃ e args values,
      body = [⟨.intrinsic e args, line⟩, ⟨.localDecl names values, line'⟩] ∧
        args.length = count := by
  unfold decoration? at h
  split at h
  · cases h
    exact ⟨_, _, _, rfl, rfl⟩
  · cases h

theorem expandIntrinsics_descriptors_nested : ∃ tokens c c' values call,
    ∃ (tables : List ExprId) (before after : Block),
    tokenize "do @watch(1) local a, b end" = .ok tokens ∧ parse tokens = .ok c ∧
    expandIntrinsics c = (c', none) ∧
    c'.HasList (before ++ .ignore 1 :: ⟨.localDecl ["a", "b"] values, 1⟩ :: .call call 1 :: after) ∧
    tables.length = 2 ∧ ∀ i name table, ["a", "b"][i]? = some name → tables[i]? = some table →
      ∃ label get set, Entries c'.arena table [("name", label), ("get", get), ("set", set)] ∧
        Returns c'.arena ["a", "b"] get (.declared i) ∧
        Assigns c'.arena ["a", "b"] set (.declared i) (.parameter 0) := by
  obtain ⟨tokens, c, htokens, hparse, hbody, hsuccess⟩ := exists_parsed (P := fun _ c =>
    (c.body.flatMap fun s => s.kind.blocks).filterMap Block.decoration? = [(1, ["a", "b"], 1, 1)] ∧
      (expandIntrinsics c).2 = none)
    "do @watch(1) local a, b end" (by decide +kernel)
  obtain ⟨body, hmem, hdecoration⟩ := List.mem_filterMap.1 (hbody ▸ List.mem_singleton_self _)
  obtain ⟨s, hs, hb⟩ := List.mem_flatMap.1 hmem
  obtain ⟨e, args, values, rfl, -⟩ := Block.exists_of_decoration? hdecoration
  have hlist : c.HasList [⟨.intrinsic e args, 1⟩, ⟨.localDecl ["a", "b"] values, 1⟩] :=
    .nested .body hs hb
  obtain ⟨before, call, tables, after, hlist', -, -, -, -, hlength, htables⟩ :=
    expandIntrinsics_descriptors hparse []
      (show expandIntrinsics (c.passed []) = ((expandIntrinsics c).1, none) from
        Prod.ext rfl hsuccess) hlist (show _ = [] ++ _ :: _ :: [] from rfl)
  refine ⟨tokens, c, _, values, call, tables, before, after, htokens, hparse,
    Prod.ext rfl hsuccess, hlist', hlength, fun i name table hname htable => ?_⟩
  obtain ⟨label, get, set, hentries, -, hget, hset, -⟩ := htables i name table hname htable
  -- neither name comes again, and none is `v`
  have hnames : name ∉ ["a", "b"].drop (i + 1) ∧ name ≠ "v" := by
    rcases i with _ | _ | i
    · obtain rfl := Option.some.inj hname
      decide
    · obtain rfl := Option.some.inj hname
      decide
    · simp at hname
  exact ⟨label, get, set, hentries, hget.2 hnames.1, hset.2 hnames⟩

/-- The setter of a variable `v` assigns to its own parameter. -/
theorem expandIntrinsics_descriptors_captured : ∃ tokens c c' e values call table label get set,
    tokenize "@watch\nlocal v = 1" = .ok tokens ∧ parse tokens = .ok c ∧
    expandIntrinsics c = (c', none) ∧
    c.body = [⟨.intrinsic e [], 1⟩, ⟨.localDecl ["v"] values, 2⟩] ∧
    c'.body = [.ignore 1, ⟨.localDecl ["v"] values, 2⟩, .call call 2] ∧
    c'.arena.get call = .call e [table] ∧
    Entries c'.arena table [("name", label), ("get", get), ("set", set)] ∧
    ¬ Assigns c'.arena ["v"] set (.declared 0) (.parameter 0) ∧
    Assigns c'.arena ["v"] set (.parameter 0) (.parameter 0) := by
  obtain ⟨tokens, c, htokens, hparse, hbody, hsuccess⟩ := exists_parsed (P := fun _ c =>
    c.body.decoration? = some (0, ["v"], 1, 2) ∧ (expandIntrinsics c).2 = none)
    "@watch\nlocal v = 1" (by decide +kernel)
  obtain ⟨e, args, values, heq, hargs⟩ := Block.exists_of_decoration? hbody
  obtain rfl := List.length_eq_zero_iff.1 hargs
  obtain ⟨-, hexpands, -⟩ :=
    expandIntrinsics_expands (parse_chunk_sound hparse) (Prod.ext rfl hsuccess)
  rw [heq] at hexpands
  generalize hout : (expandIntrinsics c).1.body = out at hexpands
  -- the two statements are taken together, as the first is an intrinsic
  cases hexpands with
  | kept hkind => exact absurd rfl (hkind _ _)
  | decorated hmakes _ hrest =>
    cases hrest
    cases hmakes with
    | @declaration _ _ _ call tables hcall htables =>
      obtain ⟨table, rfl⟩ : ∃ table, tables = [table] :=
        List.length_eq_one_iff.1 htables.length_eq.symm
      -- the general account of an access, at a variable with the name of the parameter
      obtain ⟨label, get, set, hentries, -, -, hset, hown⟩ :=
        (List.forall₂_cons.1 htables).1.accesses (i := 0) (show ["v"][0]? = some "v" from rfl)
      exact ⟨tokens, c, _, e, values, call, table, label, get, set, htokens, hparse,
        Prod.ext rfl hsuccess, heq, hout, hcall, hentries, fun h => (hset.1 h).2 rfl, hown rfl⟩

end LuaSugar
