import Mathlib
import LuaSugar.Desugar
import LuaSugar.Proofs.Syntax.Growth
import LuaSugar.Proofs.Pass.Building
/-!
# Plain nodes

Most of what callbacks build is plain: names, texts, members, operations,
calls and tables, and literals of one statement such as the getters of a
descriptor. Where plain nodes of ids with a property have the property
too, all of that has it.
-/

namespace LuaSugar

/-- Neither a function literal nor `...`, and nothing that a pass
removes. -/
def Expr.isPlain : Expr → Bool
  | .atom (.func _) | .atom (.element _) | .atom .vararg | .arith (.assign _ _ _) => false
  | _ => true

/-- Statements without lists that no pass removes. -/
def StmtKind.isPlain : StmtKind → Bool
  | .ret _ | .localDecl _ _ | .assign _ _ | .call _ => true
  | _ => false

/-- A plain statement that stands alone holds no list of statements. -/
theorem StmtKind.blocks_of_isPlain {kind : StmtKind} (h : kind.isPlain) : kind.blocks = [] := by
  cases kind <;> first | rfl | cases h

namespace Element

/-- The call that is put in place of an element, where the nodes inside are
gone through by `inner`. -/
def call (constructor : String) (inner : ExprId → Build Unit) (e : Element) : Build Expr := do
  let tag ← Build.alloc (tag e.name)
  let properties ← e.properties.foldlM (fun t (name, value) => do
    inner value
    Build.pushNamed t name value) Table.empty
  let properties ← Build.table properties
  let children ← (e.children.getD []).foldlM (fun t child => do
    inner child
    pure (t.pushPositional child)) Table.empty
  let children ← Build.table children
  let target ← Build.name constructor
  pure (.call target [tag, properties, children])

/-- Go through the elements below a node. -/
def within (constructor : String) (depth : ℕ) (root : ExprId) : Build Unit := do
  ((← get).leaves root).forM (lower constructor depth)

/-- One level of lowering: an element gives way to a call, and anything else stays. -/
theorem lower_succ (constructor : String) (depth : ℕ) (i : ExprId) :
    lower constructor (depth + 1) i = (do
      match (← get).get i with
      | .atom (.element e) =>
        modify (·.set i (.atom .nil))
        let call ← call constructor (within constructor depth) e
        modify (·.set i call)
      | _ => pure ()) := by
  rfl

end Element

variable {W : Type} [Preorder W] {good : W → Arena → Prop} {P : W → ExprId → Prop}

/-- Texts and tables of ids with a property have it: the tables that stand
for elements and descriptors need no more. -/
structure MakesTables (good : W → Arena → Prop) (P : W → ExprId → Prop) : Prop where
  mono : ∀ {w w' x}, w ≤ w' → P w x → P w' x
  text : ∀ {w a}, good w a → ∀ text, Builds good (Build.text text) P w a
  table : ∀ {w a} {t : Table}, good w a → (∀ x ∈ t.ids, P w x) → Builds good (Build.table t) P w a

/-- Plain nodes of ids with a property have it. -/
structure Makes (good : W → Arena → Prop) (P : W → ExprId → Prop) : Prop where
  mono : ∀ {w w' x}, w ≤ w' → P w x → P w' x
  node : ∀ {w a e}, good w a → e.isPlain → (∀ x ∈ e.children, P w x) →
    Builds good (Build.alloc e) P w a

/-- Literals of a plain statement have it as well. -/
structure MakesLiterals (good : W → Arena → Prop) (P : W → ExprId → Prop) : Prop extends
    Makes good P where
  closure : ∀ {w a s} (params : List String), good w a → s.kind.isPlain →
    (∀ x ∈ s.kind.roots, P w x) → Builds good (Build.closure params [s]) P w a

variable {w : W} {a : Arena} {x y : ExprId}

namespace MakesTables

variable (hm : MakesTables good P)
include hm

/-- A table that a named entry is put into. -/
theorem pushNamed (h : good w a) {t : Table} (key : String) (ht : ∀ x ∈ t.ids, P w x)
    (hx : P w x) : Builds good (Build.pushNamed t key x) (fun w' t' => ∀ y ∈ t'.ids, P w' y) w a := by
  refine Builds.bind (hm.text h key) fun w₁ label a₁ h₁ hg₁ hlabel => Builds.pure hg₁ ?_
  intro y hy
  rw [Table.ids_pushKeyed, List.mem_append, List.mem_cons, List.mem_singleton] at hy
  rcases hy with hy | rfl | rfl
  · exact hm.mono h₁ (ht y hy)
  · exact hlabel
  · exact hm.mono h₁ hx

section Elements

variable {f : ExprId → Build Unit}

/-- The table of an element's properties, where the elements inside are
lowered on the way. -/
theorem properties {l : List (String × ExprId)} (h : good w a) (hl : ∀ entry ∈ l, P w entry.2)
    (hf : ∀ {w' a' x}, w ≤ w' → good w' a' → P w' x →
      Builds good (f x) (fun _ _ => True) w' a') :
    Builds good (l.foldlM (fun t (name, value) => do
      f value
      Build.pushNamed t name value) Table.empty) (fun w' t => ∀ x ∈ t.ids, P w' x) w a := by
  refine Builds.foldlM (I := fun w' (t : Table) => ∀ x ∈ t.ids, P w' x) h (by simp)
    fun w₁ t entry a₁ hentry h₁ hg₁ ht => ?_
  have hvalue : P w₁ entry.2 := hm.mono h₁ (hl entry hentry)
  refine Builds.bind (hf h₁ hg₁ hvalue) fun w₂ _ a₂ h₂ hg₂ _ => ?_
  exact hm.pushNamed hg₂ entry.1 (fun x hx => hm.mono h₂ (ht x hx)) (hm.mono h₂ hvalue)

/-- The table of its children likewise. -/
theorem children {l : List ExprId} (h : good w a) (hl : ∀ x ∈ l, P w x)
    (hf : ∀ {w' a' x}, w ≤ w' → good w' a' → P w' x →
      Builds good (f x) (fun _ _ => True) w' a') :
    Builds good (l.foldlM (fun t child => do
      f child
      pure (t.pushPositional child)) Table.empty) (fun w' t => ∀ x ∈ t.ids, P w' x) w a := by
  refine Builds.foldlM (I := fun w' (t : Table) => ∀ x ∈ t.ids, P w' x) h (by simp)
    fun w₁ t child a₁ hchild h₁ hg₁ ht => ?_
  have hvalue : P w₁ child := hm.mono h₁ (hl child hchild)
  refine Builds.bind (hf h₁ hg₁ hvalue) fun w₂ _ a₂ h₂ hg₂ _ => Builds.pure hg₂ ?_
  intro x hx
  rw [Table.ids_pushPositional, List.mem_append, List.mem_singleton] at hx
  rcases hx with hx | rfl
  · exact hm.mono h₂ (ht x hx)
  · exact hm.mono h₂ hvalue

/-- **The call of an element** has what the nodes have that the element
holds, where its tag and the constructor's name do. -/
theorem element {constructor : String} {e : Element}
    (he : ∀ x ∈ (Expr.atom (.element e)).children, P w x)
    (htag : Builds good (Build.alloc (Element.tag e.name)) P w a)
    (htarget : ∀ {w' a'}, good w' a' → Builds good (Build.name constructor) P w' a')
    (hf : ∀ {w' a' x}, w ≤ w' → good w' a' → P w' x →
      Builds good (f x) (fun _ _ => True) w' a') :
    Builds good (Element.call constructor f e)
      (fun w' node => ∃ target args, node = .call target args ∧ ∀ x ∈ target :: args, P w' x)
      w a := by
  unfold Element.call
  refine htag.bind fun w₁ tag a₁ h₁ hg₁ htag => ?_
  refine (hm.properties (f := f) hg₁
    (fun p hp => hm.mono h₁ (he p.2 (List.mem_append_left _ (List.mem_map_of_mem hp))))
    fun hle => hf (h₁.trans hle)).bind fun w₂ properties a₂ h₂ hg₂ hproperties => ?_
  refine (hm.table hg₂ hproperties).bind fun w₃ propertyTable a₃ h₃ hg₃ hp => ?_
  have h₀₃ : w ≤ w₃ := h₁.trans (h₂.trans h₃)
  refine (hm.children (f := f) hg₃
    (fun x hx => hm.mono h₀₃ (he x (List.mem_append_right _ hx)))
    fun hle => hf (h₀₃.trans hle)).bind fun w₄ children a₄ h₄ hg₄ hchildren => ?_
  refine (hm.table hg₄ hchildren).bind fun w₅ childTable a₅ h₅ hg₅ hc => ?_
  refine (htarget hg₅).bind fun w₆ target a₆ h₆ hg₆ ht => .pure hg₆ ⟨target, _, rfl, ?_⟩
  have h₃₆ : w₃ ≤ w₆ := h₄.trans (h₅.trans h₆)
  simpa using ⟨ht, hm.mono ((h₂.trans h₃).trans h₃₆) htag, hm.mono h₃₆ hp, hm.mono h₆ hc⟩

end Elements

/-- **The descriptor of a variable** has what its getter and its setter
have. -/
theorem descriptor {name : String} {line : ℕ}
    (hgetter : Builds good (Intrinsic.getter name line) P w a)
    (hsetter : ∀ {w' a'}, good w' a' → Builds good (Intrinsic.setter name line) P w' a') :
    Builds good (Intrinsic.descriptor line name) P w a := by
  unfold Intrinsic.descriptor
  refine hgetter.bind fun w₁ get a₁ h₁ hg₁ hget => ?_
  refine (hsetter hg₁).bind fun w₂ set a₂ h₂ hg₂ hset => ?_
  refine (hm.text hg₂ name).bind fun w₃ label a₃ h₃ hg₃ hlabel => ?_
  refine (hm.pushNamed hg₃ "name" (by simp) hlabel).bind fun w₄ t₄ a₄ h₄ hg₄ ht₄ => ?_
  refine (hm.pushNamed hg₄ "get" ht₄ (hm.mono (h₂.trans (h₃.trans h₄)) hget)).bind
    fun w₅ t₅ a₅ h₅ hg₅ ht₅ => ?_
  refine (hm.pushNamed hg₅ "set" ht₅ (hm.mono (h₃.trans (h₄.trans h₅)) hset)).bind
    fun w₆ t₆ a₆ h₆ hg₆ ht₆ => ?_
  exact hm.table hg₆ ht₆

end MakesTables

namespace Makes

variable (hm : Makes good P)
include hm

/-- A name read as an expression. -/
theorem name (h : good w a) (text : String) : Builds good (Build.name text) P w a :=
  hm.node h rfl (by simp [Expr.ofName, Expr.children])

/-- A string literal. -/
theorem text (h : good w a) (text : String) : Builds good (Build.text text) P w a :=
  hm.node h rfl (by simp [Expr.ofText, Expr.children])

/-- A member of what is made already. -/
theorem member (h : good w a) (hx : P w x) (text : String) :
    Builds good (Build.member x text) P w a :=
  hm.node h rfl (by simpa [Expr.children] using hx)

/-- An operator between two operands that are made already. -/
theorem binary (h : good w a) (op : BinaryOp) (hx : P w x) (hy : P w y) :
    Builds good (Build.binary op x y) P w a :=
  hm.node h rfl (by simp [Expr.children, hx, hy])

/-- A call of what is made already. -/
theorem call (h : good w a) {args : List ExprId} (hx : P w x) (hargs : ∀ y ∈ args, P w y) :
    Builds good (Build.call x args) P w a :=
  hm.node h rfl (by simpa [Expr.call, Expr.children, hx] using hargs)

/-- A table of what is made already. -/
theorem table (h : good w a) {t : Table} (ht : ∀ x ∈ t.ids, P w x) :
    Builds good (Build.table t) P w a :=
  hm.node h rfl fun x hx => ht x (List.mem_append_left _ hx)

/-- What makes plain nodes makes tables of them too. -/
theorem tables : MakesTables good P :=
  ⟨hm.mono, hm.text, fun h ht => hm.table h ht⟩

/-- A dotted path: none only without segments, and made of names and members. -/
theorem path (h : good w a) (segments : List String) :
    Builds good (Build.path segments)
      (fun w' i? => (i? = none → segments = []) ∧ ∀ i ∈ i?, P w' i) w a := by
  cases segments with
  | nil => exact Builds.pure h ⟨fun _ => rfl, by simp⟩
  | cons first rest =>
    refine Builds.bind (hm.name h first) fun w₁ root a₁ h₁ hg₁ hroot => ?_
    refine Builds.bind (Builds.foldlM (I := P) hg₁ hroot
      fun w' i text a' _ _ hg' hi => hm.member hg' hi text) fun w₂ i a₂ h₂ hg₂ hi => ?_
    exact Builds.pure hg₂ ⟨by simp, by simpa using hi⟩

/-- The name that an import reads of its holder. -/
theorem readMember (h : good w a) (holder text : String) :
    Builds good (Import.readMember holder text) P w a :=
  Builds.bind (hm.name h holder) fun _ _ _ _ hg₁ hobject => hm.member hg₁ hobject text

/-- The call of an element is plain as well. -/
theorem element {constructor : String} {e : Element} {f : ExprId → Build Unit} (h : good w a)
    (he : ∀ x ∈ (Expr.atom (.element e)).children, P w x)
    (hf : ∀ {w' a' x}, w ≤ w' → good w' a' → P w' x →
      Builds good (f x) (fun _ _ => True) w' a') :
    Builds good (Element.call constructor f e)
      (fun w' node => node.isPlain ∧ ∀ x ∈ node.children, P w' x) w a := by
  have htag : Builds good (Build.alloc (Element.tag e.name)) P w a := by
    unfold Element.tag
    split
    · exact hm.name h e.name
    · exact hm.text h e.name
  refine (hm.tables.element he htag (fun h => hm.name h constructor) hf).mono ?_
  rintro w' _ - ⟨target, args, rfl, hargs⟩
  exact ⟨rfl, by simpa [Expr.call, Expr.children] using hargs⟩

end Makes

/-- The descriptor of a variable needs names and literals, too. -/
theorem MakesLiterals.descriptor (hm : MakesLiterals good P) (h : good w a) (line : ℕ) (name : String) :
    Builds good (Intrinsic.descriptor line name) P w a := by
  refine hm.tables.descriptor ?_ fun {w' a'} h' => ?_
  · refine Builds.bind (hm.name h name) fun w₁ value a₁ h₁ hg₁ hvalue => ?_
    exact hm.closure [] hg₁ rfl (by simpa [Stmt.ret, StmtKind.roots] using hvalue)
  · refine Builds.bind (hm.name h' name) fun w₂ target a₂ h₂ hg₂ ht => ?_
    refine Builds.bind (hm.name hg₂ "v") fun w₃ value a₃ h₃ hg₃ hvalue => ?_
    exact hm.closure ["v"] hg₃ rfl (by simp [Stmt.assign, StmtKind.roots, hm.mono h₃ ht, hvalue])

/-! ## Growth -/

/-- Building adds nodes behind those that are there. -/
theorem Builds.extends {a a' : Arena} (h : a = a') (e : Expr) :
    Builds Eq (Build.alloc e) (fun _ _ => True) a a' :=
  ⟨(a'.alloc e).2, h ▸ Arena.extends_alloc a' e, rfl, trivial⟩

/-- **Whatever is built**, an arena only grows. -/
theorem makesLiterals_extends : MakesLiterals (@Eq Arena) fun _ _ => True :=
  ⟨⟨fun _ _ => trivial, fun h _ _ => .extends h _⟩, fun _ h _ _ => .extends h _⟩

/-- So does an edit. -/
theorem Edits.extends {σ ε α : Type} {m : Edit σ ε α} {space : Workspace σ} {Q : Arena → α → Prop}
    (h : Edits Eq m Q space.arena space) : space.arena.Extends (m.run space).2.arena := by
  obtain ⟨a, hle, hgood, -⟩ := h
  exact hgood ▸ hle

end LuaSugar
