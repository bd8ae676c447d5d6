import Mathlib
import LuaSugar.Proofs.Pass.Moves
import LuaSugar.Proofs.Pass.Turned
import LuaSugar.Proofs.Desugar.Cleans
/-!
# What intrinsics make of a list

A list with intrinsics and the list that the pass leaves of it, as one
relation (`Intrinsic.Expands`): statements stay, in their order, except
that an intrinsic and the declaration behind it become what the intrinsic
makes of the two. Lists nested in a statement expand in place; the body of
a decorated function expands in the literal that the function becomes.

The relation holds of the body of a chunk and of what the pass leaves of
it, and so does it of each literal that the chunk reaches.
-/

namespace LuaSugar

open Progress

/-! ## Nodes -/

/-- The node of an id. -/
def Arena.Is (a : Arena) (i : ExprId) (e : Expr) : Prop := a.get i = e

/-- A node that is no literal, or a literal of plain statements. -/
def Expr.Still (e : Expr) : Prop := ∀ func, e = .atom (.func func) → ∀ s ∈ func.body, s.kind.isPlain

theorem FuncBody.eta (func : FuncBody) : ⟨func.params, func.variadic, func.body⟩ = func := by
  cases func
  rfl

namespace Intrinsic

section Parts

/-! ## What the parts of an expansion are -/

variable (N : ExprId → Expr → Prop)

/-- Names joined by dots. -/
inductive Dotted : List String → ExprId → Prop
  | name {text i} : N i (.ofName text) → Dotted [text] i
  | member {path text object i} : Dotted path object → N i (.arith (.member object text)) →
      Dotted (path ++ [text]) i

/-- A function literal without parameters that returns a variable. -/
def Gets (line : ℕ) (name : String) (get : ExprId) : Prop :=
  ∃ read, N get (.atom (.func ⟨[], false, [.ret [read] line]⟩)) ∧ N read (.ofName name)

/-- A function literal that assigns its argument to a variable. -/
def Sets (line : ℕ) (name : String) (set : ExprId) : Prop :=
  ∃ target value, N set (.atom (.func ⟨["v"], false, [.assign [target] [value] line]⟩)) ∧
    N target (.ofName name) ∧ N value (.ofName "v")

/-- A table of three entries: the name of a variable, and functions to get
and to set it. -/
def Describes (line : ℕ) (name : String) (table : ExprId) : Prop :=
  ∃ nameKey label getKey get setKey set,
    N table (.atom (.table ⟨[(.expr nameKey, label), (.expr getKey, get), (.expr setKey, set)]⟩)) ∧
    (N nameKey (.ofText "name") ∧ N getKey (.ofText "get") ∧ N setKey (.ofText "set")) ∧
    N label (.ofText name) ∧ Gets N line name get ∧ Sets N line name set

/-- The call of an intrinsic with the signature of a function and the
function itself behind its own arguments. -/
def Decorates (intrinsic : ExprId) (args : List ExprId) (signature : String) (func : FuncBody)
    (call : ExprId) : Prop :=
  ∃ text literal, N call (.call intrinsic (args ++ [text, literal])) ∧
    N text (.ofText signature) ∧ N literal (.atom (.func func))

variable {N} {N' : ExprId → Expr → Prop} {line : ℕ} {name : String} {i : ExprId}
variable (hN : ∀ i e, e.Still → N i e → N' i e)
include hN

theorem Dotted.imp {path : List String} (h : Dotted N path i) : Dotted N' path i := by
  induction h with
  | name h => exact .name (hN _ _ (by simp [Expr.Still, Expr.ofName]) h)
  | member _ h ih => exact .member ih (hN _ _ (by simp [Expr.Still]) h)

theorem Describes.imp (h : Describes N line name i) : Describes N' line name i := by
  obtain ⟨nameKey, label, getKey, get, setKey, set, htable, ⟨hname, hgetKey, hsetKey⟩, hlabel,
    ⟨read, hget, hread⟩, ⟨target, value, hset, htarget, hvalue⟩⟩ := h
  have htext (text : String) : (Expr.ofText text).Still := by simp [Expr.Still, Expr.ofText]
  have hnamed (text : String) : (Expr.ofName text).Still := by simp [Expr.Still, Expr.ofName]
  have hliteral {params : List String} {s : Stmt} (hs : s.kind.isPlain) :
      (Expr.atom (.func ⟨params, false, [s]⟩)).Still := by
    rintro _ ⟨⟩ t ht
    rwa [List.mem_singleton.1 ht]
  exact ⟨nameKey, label, getKey, get, setKey, set, hN _ _ (by simp [Expr.Still]) htable,
    ⟨hN _ _ (htext _) hname, hN _ _ (htext _) hgetKey, hN _ _ (htext _) hsetKey⟩,
    hN _ _ (htext _) hlabel, ⟨read, hN _ _ (hliteral rfl) hget, hN _ _ (hnamed _) hread⟩,
    ⟨target, value, hN _ _ (hliteral rfl) hset, hN _ _ (hnamed _) htarget,
      hN _ _ (hnamed _) hvalue⟩⟩

end Parts

/-! ## Lists -/

/-- What an intrinsic makes of itself and the declaration behind it: the
statement in its own place, the one in place of the declaration, and those
inserted behind. A decorated function becomes a literal with `body`. -/
inductive Decoration (N : ExprId → Expr → Prop) (e : ExprId) (args : List ExprId) (line : ℕ)
    (body : Block) : Stmt → Stmt → Stmt → Block → Prop
  /-- The declaration stays, and the call follows it. -/
  | declaration {names values line' call tables} :
      N call (.call e (args ++ tables)) → List.Forall₂ (Describes N line') names tables →
      Decoration N e args line body ⟨.localDecl names values, line'⟩
        (.ignore line) ⟨.localDecl names values, line'⟩ [.call call line']
  /-- The definition becomes an assignment of what the intrinsic makes of
  the function. -/
  | function {path func line' target call} : Dotted N path.segments target →
      Decorates N e args (signature path.dotted (definedFunction path func))
        { definedFunction path func with body } call →
      Decoration N e args line body ⟨.function path func, line'⟩
        (.ignore line) (.assign [target] [call] line') []
  /-- A local function is declared in place of the intrinsic. -/
  | localFunction {name func line' target call} : N target (.ofName name) →
      Decorates N e args (signature name func) { func with body } call →
      Decoration N e args line body ⟨.localFunction name func, line'⟩
        (.localDecl [name] [] line) (.assign [target] [call] line') []

/-- **What a list expands to**, in the arena that the pass leaves. -/
inductive Expands (a : Arena) : Block → Block → Prop
  | nil : Expands a [] []
  /-- A statement without an intrinsic in front of it. -/
  | kept {s s' rest out} : (∀ e args, s.kind ≠ .intrinsic e args) → s'.line = s.line →
      s'.kind.hollow = s.kind.hollow →
      (∀ p ∈ s.kind.blocks.zip s'.kind.blocks, Expands a p.1 p.2) →
      Expands a rest out → Expands a (s :: rest) (s' :: out)
  | decorated {e args line next body left next' inserted rest out} :
      Decoration a.Is e args line body next left next' inserted →
      (∀ b ∈ next.kind.blocks, Expands a b body) → Expands a rest out →
      Expands a (⟨.intrinsic e args, line⟩ :: next :: rest) (left :: next' :: (inserted ++ out))

/-- **Lists expand piece by piece**: an intrinsic and its declaration are
found between what comes before and what comes after. -/
theorem Expands.split {a : Arena} {l l' : Block} (h : Expands a l l') :
    ∀ {before after : Block} {e args line next},
      l = before ++ ⟨.intrinsic e args, line⟩ :: next :: after →
      ∃ before' body left next' inserted after',
        l' = before' ++ left :: next' :: (inserted ++ after') ∧ Expands a before before' ∧
          Expands a after after' ∧ Decoration a.Is e args line body next left next' inserted := by
  induction h with
  | nil =>
    intro before after e args line next hl
    simp at hl
  | @kept s s' rest out hs hline hhollow hblocks hrest _ ih =>
    intro before after e args line next hl
    cases before with
    | nil =>
      obtain ⟨rfl, -⟩ := List.cons.inj hl
      exact absurd rfl (hs _ _)
    | cons t before =>
      obtain ⟨rfl, rfl⟩ := List.cons.inj hl
      obtain ⟨before', body, left, next', inserted, after', rfl, hbefore, hrest⟩ := ih rfl
      exact ⟨s' :: before', body, left, next', inserted, after', rfl,
        .kept hs hline hhollow hblocks hbefore, hrest⟩
  | @decorated e₀ args₀ line₀ next₀ body₀ left₀ next₁ inserted₀ rest out hmakes hbody hrest _ ih =>
    intro before after e args line next hl
    match before with
    | [] =>
      simp only [List.nil_append, List.cons.injEq, Stmt.mk.injEq, StmtKind.intrinsic.injEq] at hl
      obtain ⟨⟨⟨rfl, rfl⟩, rfl⟩, rfl, rfl⟩ := hl
      exact ⟨[], body₀, left₀, next₁, inserted₀, out, rfl, .nil, hrest, hmakes⟩
    | [t] =>
      -- an intrinsic is not a declaration
      simp only [List.cons_append, List.nil_append, List.cons.injEq] at hl
      obtain ⟨-, rfl, -⟩ := hl
      cases hmakes
    | t :: u :: before =>
      simp only [List.cons_append, List.cons.injEq] at hl
      obtain ⟨rfl, rfl, rfl⟩ := hl
      obtain ⟨before', body, left, next', inserted, after', rfl, hbefore, hrest⟩ := ih rfl
      refine ⟨left₀ :: next₁ :: (inserted₀ ++ before'), body, left, next', inserted, after',
        by simp, .decorated hmakes hbody hbefore, hrest⟩

/-! ## The rule -/

/-- What the pass makes of a statement: an intrinsic is replaced together
with the declaration ahead, whose function has not been walked by then. A
definition without a name would be lost. -/
inductive Rule (w : Progress) : Stmt → List Slot → List Stmt → List Slot → Prop
  | kept {s ahead} : (∀ e args, s.kind ≠ .intrinsic e args) → Rule w s ahead [s] ahead
  | decorated {e args line next body left next' inserted ahead} :
      Decoration w.Node e args line body next.stmt left next' inserted →
      (∀ b ∈ next.stmt.kind.blocks, b = body) →
      Rule w ⟨.intrinsic e args, line⟩ (next :: ahead) [left]
        (⟨next', next.fresh⟩ :: (inserted.map (fun s => ⟨s, true⟩) ++ ahead))
  | unnamed {e args line next ahead} : ¬ next.stmt.kind.Named →
      Rule w ⟨.intrinsic e args, line⟩ (next :: ahead) [⟨.intrinsic e args, line⟩]
        (⟨.ignore next.stmt.line, next.fresh⟩ :: ahead)

theorem Decoration.imp {N N' : ExprId → Expr → Prop} (hN : ∀ i e, N i e → N' i e)
    {e args line body next left next' inserted}
    (h : Decoration N e args line body next left next' inserted) :
    Decoration N' e args line body next left next' inserted := by
  have decorates {signature func call} (h : Decorates N e args signature func call) :
      Decorates N' e args signature func call := by
    obtain ⟨text, literal, hcall, htext, hliteral⟩ := h
    exact ⟨text, literal, hN _ _ hcall, hN _ _ htext, hN _ _ hliteral⟩
  cases h with
  | declaration hcall htables =>
    exact .declaration (hN _ _ hcall) (htables.imp fun _ _ h => h.imp fun i e _ => hN i e)
  | function htarget hcall => exact .function (htarget.imp fun i e _ => hN i e) (decorates hcall)
  | localFunction htarget hcall => exact .localFunction (hN _ _ htarget) (decorates hcall)

theorem rule_lasts : Rule.Lasts Rule := by
  refine ⟨fun hle hrule => ?_⟩
  cases hrule with
  | kept hs => exact .kept hs
  | decorated hmakes hbody => exact .decorated (hmakes.imp fun _ _ hi => hi.mono hle) hbody
  | unnamed hnamed => exact .unnamed hnamed

/-! ### Building -/

section Building

variable {v w : Progress} {a : Arena} {d n : ℕ} {e : ExprId} {args : List ExprId}

/-- A literal of one statement without lists. -/
theorem builds_closure (h : Beside Rule v w a) (params : List String) {s : Stmt}
    (hblocks : s.kind.blocks = []) (hroots : ∀ x ∈ s.kind.roots, w.Near 0 x) :
    Builds (Beside Rule v) (Build.closure params [s])
      (fun w' i => w'.Node i (.atom (.func ⟨params, false, [s]⟩)) ∧ w'.Near 1 i) w a := by
  refine h.alloc rule_lasts (by simp [Expr.children]) ?_
  rintro _ ⟨⟩ t ht
  obtain rfl := List.mem_singleton.1 ht
  exact ⟨hroots, by simp [hblocks]⟩

theorem builds_getter (h : Beside Rule v w a) (line : ℕ) (name : String) :
    Builds (Beside Rule v) (getter name line)
      (fun w' i => Gets w'.Node line name i ∧ w'.Near 1 i) w a := by
  refine (h.name rule_lasts name).bind fun w₁ read a₁ _ h₁ ⟨hread, hnear⟩ => ?_
  refine (builds_closure h₁ [] rfl (by simpa [Stmt.ret, StmtKind.roots] using hnear)).mono ?_
  exact fun w' get hle hget => ⟨⟨read, hget.1, hread.mono hle⟩, hget.2⟩

theorem builds_setter (h : Beside Rule v w a) (line : ℕ) (name : String) :
    Builds (Beside Rule v) (setter name line)
      (fun w' i => Sets w'.Node line name i ∧ w'.Near 1 i) w a := by
  refine (h.name rule_lasts name).bind fun w₁ target a₁ _ h₁ ⟨htarget, hnear₁⟩ => ?_
  refine (h₁.name rule_lasts "v").bind fun w₂ value a₂ hle₂ h₂ ⟨hvalue, hnear₂⟩ => ?_
  refine (builds_closure h₂ ["v"] (s := .assign [target] [value] line) rfl ?_).mono ?_
  · simpa [Stmt.assign, StmtKind.roots] using ⟨hnear₁.mono hle₂, hnear₂⟩
  · exact fun w' set hle hset => ⟨⟨target, value, hset.1, (htarget.mono hle₂).mono hle,
      hvalue.mono hle⟩, hset.2⟩

/-- **The descriptor** of a variable. -/
theorem builds_descriptor (h : Beside Rule v w a) (line : ℕ) (name : String) :
    Builds (Beside Rule v) (descriptor line name)
      (fun w' i => Describes w'.Node line name i ∧ w'.Near 1 i) w a := by
  unfold descriptor
  refine (builds_getter h line name).bind fun w₁ get a₁ _ h₁ ⟨hget, hnearGet⟩ => ?_
  refine (builds_setter h₁ line name).bind fun w₂ set a₂ hle₂ h₂ ⟨hset, hnearSet⟩ => ?_
  refine (h₂.text rule_lasts name).bind fun w₃ label a₃ hle₃ h₃ ⟨hlabel, hnearLabel⟩ => ?_
  -- each entry has a key of its own
  unfold Build.pushNamed
  simp only [bind_assoc, pure_bind]
  refine (h₃.text rule_lasts "name").bind fun w₄ nameKey a₄ hle₄ h₄ ⟨hnameKey, hnear₄⟩ => ?_
  refine (h₄.text rule_lasts "get").bind fun w₅ getKey a₅ hle₅ h₅ ⟨hgetKey, hnear₅⟩ => ?_
  refine (h₅.text rule_lasts "set").bind fun w₆ setKey a₆ hle₆ h₆ ⟨hsetKey, hnear₆⟩ => ?_
  have hle₃₆ : w₃ ≤ w₆ := hle₄.trans (hle₅.trans hle₆)
  have hle₁₆ : w₁ ≤ w₆ := hle₂.trans (hle₃.trans hle₃₆)
  have near {w' : Progress} {i : ExprId} (hle : w' ≤ w₆) (hi : w'.Near 0 i) : w₆.Near 1 i :=
    (hi.mono hle).deeper (Nat.zero_le 1)
  refine (h₆.plain rule_lasts (n := 1) (by simp) ?_).mono fun w' table hle htable => ⟨?_, htable.2⟩
  · simp only [Table.pushKeyed, Table.empty, Expr.children, List.nil_append, List.flatMap_cons,
      List.cons_append, List.flatMap_nil, List.forall_mem_cons]
    exact ⟨near (hle₅.trans hle₆) hnear₄, near hle₃₆ hnearLabel, near hle₆ hnear₅,
      hnearGet.mono hle₁₆, near le_rfl hnear₆, hnearSet.mono (hle₃.trans hle₃₆), by simp⟩
  · have imp {w'' : Progress} (hle' : w'' ≤ w₆) : ∀ i e, w''.Node i e → w'.Node i e :=
      fun _ _ hi => (hi.mono hle').mono hle
    obtain ⟨read, hget, hread⟩ := hget
    obtain ⟨target, value, hset, htarget, hvalue⟩ := hset
    exact ⟨nameKey, label, getKey, get, setKey, set, htable.1,
      ⟨imp (hle₅.trans hle₆) _ _ hnameKey, imp hle₆ _ _ hgetKey, imp le_rfl _ _ hsetKey⟩,
      imp hle₃₆ _ _ hlabel, ⟨read, imp hle₁₆ _ _ hget, imp hle₁₆ _ _ hread⟩,
      target, value, imp (hle₃.trans hle₃₆) _ _ hset, imp (hle₃.trans hle₃₆) _ _ htarget,
      imp (hle₃.trans hle₃₆) _ _ hvalue⟩

/-- The call of an intrinsic with descriptors behind its own arguments. -/
theorem builds_describe (h : Beside Rule v w a) (he : w.Near d e) (hargs : ∀ x ∈ args, w.Near d x)
    (line : ℕ) (names : List String) :
    Builds (Beside Rule v)
      (names.mapM (descriptor line) >>= fun tables => Build.call e (args ++ tables))
      (fun w' call => ∃ tables, w'.Node call (.call e (args ++ tables)) ∧
        List.Forall₂ (Describes w'.Node line) names tables) w a := by
  refine (Builds.mapM_forall₂ (Q := fun w name i => Describes w.Node line name i ∧ w.Near 1 i)
    (fun hle hi => ⟨hi.1.imp fun _ _ _ hi => hi.mono hle, hi.2.mono hle⟩) h
    fun w' name a' _ _ h' => builds_descriptor h' line name).bind
    fun w₁ tables a₁ hle₁ h₁ htables => ?_
  refine (h₁.plain rule_lasts (n := max d 1) (by simp [Expr.call]) ?_).mono fun w' call hle hcall =>
    ⟨tables, hcall.1, htables.imp fun _ _ hi => hi.1.imp fun _ _ _ hi => hi.mono hle⟩
  have hnear : ∀ x ∈ tables, w₁.Near 1 x :=
    ((List.forall₂_and_left _ _).1 (htables.flip.imp fun _ _ hi => ⟨hi.2, trivial⟩)).1
  simp only [Expr.call, Expr.children, List.forall_mem_cons, List.forall_mem_append]
  exact ⟨(he.mono hle₁).deeper (le_max_left _ _),
    fun x hx => ((hargs x hx).mono hle₁).deeper (le_max_left _ _),
    fun x hx => (hnear x hx).deeper (le_max_right _ _)⟩

/-- Members of a path, from the names in front. -/
theorem builds_members : ∀ (rest : List String) {w : Progress} {a : Arena} {path : List String}
    {object : ExprId}, Beside Rule v w a → Dotted w.Node path object → w.Near 0 object →
    Builds (Beside Rule v) (rest.foldlM Build.member object)
      (fun w' i => Dotted w'.Node (path ++ rest) i ∧ w'.Near 0 i) w a
  | [], w, a, path, object, h, hpath, hnear => .pure h ⟨by simpa using hpath, hnear⟩
  | text :: rest, w, a, path, object, h, hpath, hnear => by
    rw [List.foldlM_cons]
    refine (h.plain rule_lasts (n := 0) (by simp) (by simpa [Expr.children] using hnear)).bind
      fun w₁ i a₁ hle₁ h₁ ⟨hi, hnear₁⟩ => ?_
    have hpath₁ : Dotted w₁.Node (path ++ [text]) i :=
      .member (hpath.imp fun _ _ _ hi => hi.mono hle₁) hi
    refine (builds_members rest h₁ hpath₁ hnear₁).mono fun w' i _ hi => ?_
    rwa [List.append_assoc] at hi

theorem builds_path (h : Beside Rule v w a) (segments : List String) :
    Builds (Beside Rule v) (Build.path segments) (fun w' i? => (i? = none → segments = []) ∧
      ∀ i ∈ i?, Dotted w'.Node segments i ∧ w'.Near 0 i) w a := by
  cases segments with
  | nil => exact .pure h ⟨fun _ => rfl, by simp⟩
  | cons first rest =>
    refine (h.name rule_lasts first).bind fun w₁ root a₁ _ h₁ ⟨hroot, hnear⟩ => ?_
    refine (builds_members rest h₁ (.name hroot) hnear).bind fun w₂ i a₂ _ h₂ hi => ?_
    exact .pure h₂ ⟨by simp, by simpa using hi⟩

/-- **A decorated function** is a literal with the same body. -/
theorem builds_decorate (h : Beside Rule v w a) (he : w.Near d e) (hargs : ∀ x ∈ args, w.Near d x)
    (signature : String) {func : FuncBody} (hbody : ∀ s ∈ func.body, w.Todo d s) :
    Builds (Beside Rule v) (decorate e args signature func)
      (fun w' i => Decorates w'.Node e args signature func i ∧ w'.Near d i) w a := by
  refine (h.text rule_lasts signature).bind fun w₁ text a₁ hle₁ h₁ ⟨htext, hnear₁⟩ => ?_
  refine (h₁.alloc (n := d) rule_lasts (by simp [Expr.children]) ?_).bind
    fun w₂ literal a₂ hle₂ h₂ ⟨hliteral, hnear₂⟩ => ?_
  · rintro _ ⟨⟩ s hs
    exact (hbody s hs).mono hle₁
  · have hle : w ≤ w₂ := hle₁.trans hle₂
    refine (h₂.plain rule_lasts (n := d) (by simp [Expr.call]) ?_).mono fun w' call hle' hcall =>
      ⟨⟨text, literal, hcall.1, (htext.mono hle₂).mono hle', hliteral.mono hle'⟩, hcall.2⟩
    have htext₂ : w₂.Near d text := (hnear₁.mono hle₂).deeper (Nat.zero_le d)
    simp only [Expr.call, Expr.children, List.forall_mem_cons, List.forall_mem_append]
    exact ⟨he.mono hle, fun x hx => (hargs x hx).mono hle, htext₂, hnear₂, by simp⟩

end Building

/-! ### The callback -/

section Callback

variable {v w : Progress} {d : ℕ} {e : ExprId} {args : List ExprId} {line : ℕ} {next : Cursor}
variable {space : Workspace Unit}

/-- The rule is followed when an intrinsic is replaced and the cursor is on
what replaces the declaration. -/
def Replaces (line : ℕ) (e : ExprId) (args : List ExprId) (d : ℕ) (next : Cursor) (w : Progress)
    (answer : Cursor × Stmt) : Prop :=
  ∃ (next' : Stmt) (inserted : Block),
    answer.1 = ⟨next.before, ⟨next', next.focus.fresh⟩,
      inserted.map (fun s => ⟨s, true⟩) ++ next.after⟩ ∧
    Rule w ⟨.intrinsic e args, line⟩ (next.focus :: next.after) [answer.2]
      (⟨next', next.focus.fresh⟩ :: (inserted.map (fun s => ⟨s, true⟩) ++ next.after)) ∧
    w.Awaits d ⟨next', next.focus.fresh⟩ ∧ ∀ s ∈ inserted, s.kind.blocks = []

/-- **A declaration** has the call behind it. -/
theorem edits_declaration (h : Beside Rule v w space.arena) (he : w.Near d e)
    (hargs : ∀ x ∈ args, w.Near d x) (hnext : w.Awaits d next.focus) {names : List String}
    {values : List ExprId} (hkind : next.stmt.kind = .localDecl names values) :
    Edits (Beside Rule v) (decorateNext line e args next) (Replaces line e args d next) w
      space := by
  obtain ⟨before, ⟨⟨kind, line'⟩, fresh⟩, after⟩ := next
  obtain rfl : kind = .localDecl names values := hkind
  refine (Edits.build (builds_describe h he hargs line' names)).bind
    fun w₁ call space₁ hle h₁ ⟨tables, hcall, htables⟩ => .pure h₁ ?_
  have hmakes : Decoration w₁.Node e args line [] ⟨.localDecl names values, line'⟩ (.ignore line)
      ⟨.localDecl names values, line'⟩ [.call call line'] := .declaration hcall htables
  exact ⟨⟨.localDecl names values, line'⟩, [.call call line'], rfl,
    .decorated hmakes (by simp [StmtKind.blocks]), hnext.mono hle,
    by simp [Stmt.call, StmtKind.blocks]⟩

/-- **A definition** is replaced by an assignment of the decorated function. -/
theorem edits_definition (h : Beside Rule v w space.arena) (he : w.Near d e)
    (hargs : ∀ x ∈ args, w.Near d x) (hnext : w.Awaits d next.focus) {target : ExprId}
    (htarget : w.Near 0 target) {signature : String} {func : FuncBody} {left : Stmt}
    (hblocks : next.stmt.kind.blocks = [func.body])
    (hmakes : ∀ {w' call}, w ≤ w' → Decorates w'.Node e args signature func call →
      Decoration w'.Node e args line func.body next.stmt left (.assign [target] [call] next.line)
        []) :
    Edits (Beside Rule v) (do
      let call ← Edit.build (decorate e args signature func)
      pure (next.replace (.assign [target] [call] next.line), left) :
        Edit Unit IntrinsicError (Cursor × Stmt)) (Replaces line e args d next) w space := by
  have hlist : func.body ∈ next.stmt.kind.blocks := by simp [hblocks]
  have honly : ∀ b ∈ next.stmt.kind.blocks, b = func.body := by simp [hblocks]
  refine (Edits.build (builds_decorate h he hargs signature (hnext.nested hlist))).bind
    fun w₁ call space₁ hle h₁ ⟨hcall, hnear⟩ => .pure h₁ ?_
  refine ⟨.assign [target] [call] next.line, [], rfl, .decorated (hmakes hle hcall) honly,
    .of_roots rfl ?_, by simp⟩
  simpa [Stmt.assign, StmtKind.roots] using ⟨(htarget.mono hle).deeper (Nat.zero_le d), hnear⟩

/-- **Decorating** what is ahead. -/
theorem edits_decorateNext (next : Cursor) (h : Beside Rule v w space.arena) (he : w.Near d e)
    (hargs : ∀ x ∈ args, w.Near d x) (hnext : w.Awaits d next.focus) :
    Edits (Beside Rule v) (decorateNext line e args next) (Replaces line e args d next) w
      space := by
  obtain ⟨before, ⟨⟨kind, line'⟩, fresh⟩, after⟩ := next
  unfold decorateNext
  cases kind with
  | localDecl names values => exact edits_declaration h he hargs hnext rfl
  | function path func =>
    refine (Edits.build (builds_path h path.segments)).bind
      fun w₁ target? space₁ hle₁ h₁ htarget => ?_
    cases target? with
    | none =>
      refine .pure h₁ ⟨.ignore line', [], rfl, .unnamed fun hnamed => ?_,
        .of_roots rfl (by simp [Stmt.ignore, StmtKind.roots]), by simp⟩
      exact hnamed path func rfl (htarget.1 rfl)
    | some target =>
      obtain ⟨hdotted, hnear⟩ := htarget.2 target rfl
      have hbody : (definedFunction path func).body = func.body := by
        unfold definedFunction
        split <;> rfl
      refine edits_definition h₁ (he.mono hle₁) (fun x hx => (hargs x hx).mono hle₁)
        (hnext.mono hle₁) hnear (by rw [hbody]; rfl) fun hle hcall => ?_
      exact .function (hdotted.imp fun _ _ _ hi => hi.mono hle) ((FuncBody.eta _).symm ▸ hcall)
  | localFunction name func =>
    refine (Edits.build (h.name rule_lasts name)).bind
      fun w₁ target space₁ hle₁ h₁ hmade => ?_
    obtain ⟨htarget, hnear⟩ := hmade
    refine edits_definition h₁ (he.mono hle₁) (fun x hx => (hargs x hx).mono hle₁)
      (hnext.mono hle₁) hnear rfl fun hle hcall => ?_
    exact .localFunction (htarget.mono hle) (func.eta.symm ▸ hcall)
  | _ => exact .throw h

end Callback

/-- **The pass follows its rule.** -/
theorem ruled : Ruled pass.statement Rule := by
  refine ⟨rule_lasts, fun {v w d} c {space} h hroots hafter => ?_⟩
  obtain ⟨before, ⟨⟨kind, line⟩, fresh⟩, after⟩ := c
  -- anything but an intrinsic is left where it is
  have stays (hkind : ∀ e args, kind ≠ .intrinsic e args) :
      Leaves Rule d ⟨before, ⟨⟨kind, line⟩, fresh⟩, after⟩ w
        ⟨before, ⟨⟨kind, line⟩, fresh⟩, after⟩ :=
    ⟨⟨[⟨⟨kind, line⟩, fresh⟩], rfl, .kept hkind⟩, hafter, le_rfl⟩
  cases kind with
  | intrinsic e args =>
    cases after with
    | nil => exact .throw h
    | cons slot after =>
      have hnear : ∀ x ∈ e :: args, w.Near d x := hroots
      rw [List.forall_mem_cons] at hnear
      refine (edits_decorateNext ⟨⟨⟨.intrinsic e args, line⟩, fresh⟩ :: before, slot, after⟩ h
        hnear.1 hnear.2 (hafter slot List.mem_cons_self)).bind
        fun w₁ answer space₁ hle₁ h₁ ⟨next', inserted, hanswer, hrule, hawaits, hblocks⟩ => ?_
      -- the cursor came back by one, over what was put ahead
      have hback := Move.backTo_index before [] (inserted.map (fun s => ⟨s, true⟩) ++ after)
        ⟨⟨.intrinsic e args, line⟩, fresh⟩ ⟨next', slot.fresh⟩
      simp only [List.nil_append, List.reverse_nil] at hback
      obtain ⟨next₁, left⟩ := answer
      obtain rfl : next₁ = _ := hanswer
      refine .pure h₁ ?_
      show Leaves Rule d _ w₁ ((Cursor.backTo before.length _).replace left)
      rw [hback]
      refine ⟨⟨[⟨left, fresh⟩], rfl, hrule⟩, ?_, ?_⟩
      · intro ahead hahead
        -- ahead are the statement in place of the next, what was inserted, and the rest
        rcases List.mem_cons.1 hahead with rfl | hahead
        · exact hawaits
        · rcases List.mem_append.1 hahead with hahead | hahead
          · obtain ⟨s, hs, rfl⟩ := List.mem_map.1 hahead
            exact hblocks s hs
          · exact (hafter ahead (List.mem_cons_of_mem _ hahead)).mono hle₁
      · simp [Cursor.replace, List.countP_cons, List.countP_map, Function.comp_def]
  | _ => exact .pure h (stays (by simp))

end Intrinsic

end LuaSugar
