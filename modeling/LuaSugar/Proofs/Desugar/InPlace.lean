import Mathlib
import LuaSugar.Proofs.Desugar.Idle
import LuaSugar.Proofs.Pass.InPlace
/-!
# Expressions are rewritten in place

Three passes overwrite nodes and leave all else: assignments used as values
become calls of literals that assign, elements become calls of their
constructor, and placeholders become the name of the project. Of a parsed
chunk each of them overwrites every node of its kind once, and in its place
puts the parts it had, in their order.

Elements nest, and the pass goes through an element on behalf of those
around it as well. There it finds nothing: what is below an element has been
overwritten before, by calls of nodes that hold no elements.
-/

namespace LuaSugar

open Rewriting

theorem builds_alloc_hasBody {y : ExprId} {b : Block} {a : Arena} (h : HasBody y b () a)
    (node : Expr) : Builds (HasBody y b) (Build.alloc node) (fun _ _ => True) () a :=
  ⟨(), le_rfl, (Arena.extends_alloc a node).body? h, trivial⟩

/-! ## Assignments -/

namespace AssignmentExpr

/-- What is put in place of an assignment: the call of a literal of its own
that assigns and returns the target. -/
inductive Hoists (a : Arena) (line : ℕ) : Expr → Expr → List ExprId → Prop
  | set {target value closure} : a.get closure = .atom (.func ⟨[], false,
        [.assign [target] [value] line, .ret [target] line]⟩) →
      Hoists a line (.arith (.assign .set target value)) (.call closure []) [closure]
  | compound {op target value closure} : a.get closure = .atom (.func ⟨[], false,
        [⟨.compoundAssign target op value, line⟩, .ret [target] line]⟩) →
      Hoists a line (.arith (.assign (.compound op) target value)) (.call closure []) [closure]

/-- Assignments, and what is put in their place. -/
def rewriting : Rewriting where
  here e := match e with
    | .arith (.assign _ _ _) => true
    | _ => false
  form := Hoists
  literal _ := rfl
  lasts {a a' line e e' parts} hparts h := by
    cases h with
    | set hclosure => exact .set ((hparts _ (List.mem_singleton_self _)).trans hclosure)
    | compound hclosure => exact .compound ((hparts _ (List.mem_singleton_self _)).trans hclosure)

theorem hoist_run {a : Arena} {i : ExprId} (hi : i.index < a.size) (line : ℕ) : ∃ a' made,
    (hoist line i).run ⟨a, ()⟩ = (.ok (), ⟨a', ()⟩) ∧ rewriting.Rewritten a [(i, line)] a' made := by
  unfold hoist
  rw [Edit.run_arena]
  split
  · rename_i op target value hget
    -- the literal that assigns and returns, and the arena with its call in place
    let closure : Expr :=
      .atom (.func ⟨[], false, [statement op target value line, .ret [target] line]⟩)
    let left : Arena := (a.alloc closure).2.set i (.call ⟨a.size⟩ [])
    have hne : (⟨a.size⟩ : ExprId) ≠ i := by
      rintro rfl
      exact hi.false
    have hclosure : left.get ⟨a.size⟩ = closure := by
      rw [Arena.get_set_of_ne _ hne, Arena.get_alloc_self]
    have hcall : left.get i = .call ⟨a.size⟩ [] :=
      Arena.get_set_self _ (hi.trans (Arena.size_lt_alloc a closure))
    have hsize : left.size = a.size + 1 := by simp [left]
    -- one node was made, which is the literal
    have hsince : left.since a.size = [⟨a.size⟩] := by simp [Arena.since, hsize]
    refine ⟨left, _, rfl, .one (by rw [hget]; rfl) (by omega) (fun j hj hji => ?_) ?_⟩
    · rw [Arena.get_set_of_ne _ hji, Arena.get_alloc_of_lt _ hj]
    · rw [hsince, hcall, hget]
      cases op with
      | set => exact .set hclosure
      | compound op => exact .compound hclosure
  · rename_i hother
    refine ⟨_, _, rfl, .idle ?_⟩
    unfold rewriting
    dsimp only
    split
    · rename_i op target value hget
      exact absurd hget (hother op target value)
    · rfl

theorem performs : rewriting.Performs fun root owner => do
    ((← Edit.arena).descendants root).forM (hoist owner.line) where
  run {space x} owner hnodup _ hinside := by
    rw [Edit.run_arena]
    refine Rewritten.forM hnodup hinside fun l₁ i l₂ a parts hl hleft _ => ?_
    have hi : i ∈ space.arena.descendants x := hl ▸ List.mem_append_right _ List.mem_cons_self
    exact hoist_run ((hinside i hi).trans_le hleft.size_le) owner.line
  body {space x} owner y b hbody := by
    refine .arena (.forM hbody fun _ i space₁ _ _ hbody₁ => .arena ?_)
    split
    · rename_i op target value hget
      have hne : i ≠ y := rewriting.ne_of_body? (by rw [hget]; rfl) (by simp [hbody₁])
      have hclosure := (builds_alloc_hasBody hbody₁ (.atom (.func ⟨[], false,
        [statement op target value owner.line, .ret [target] owner.line]⟩)))
      refine (Edits.build hclosure).bind fun _ closure space₂ _ hbody₂ _ =>
        .replace (le_refl ()) ?_
      rwa [HasBody, Arena.body?_set_of_ne _ hne.symm]
    · exact .pure hbody₁ trivial

end AssignmentExpr

/-! ## Placeholders -/

namespace Project

/-- What is put in place of a placeholder. -/
inductive Names (name : String) : Expr → Expr → List ExprId → Prop
  | placeholder : Names name (.ofName placeholder) (.ofText name) []

/-- Placeholders, and what is put in their place. -/
def rewriting (name : String) : Rewriting where
  here := isPlaceholder
  form _ _ := Names name
  literal _ := rfl
  lasts _ h := h

theorem eq_of_isPlaceholder {e : Expr} (h : isPlaceholder e) : e = .ofName placeholder := by
  unfold isPlaceholder at h
  split at h
  · rw [eq_of_beq h]
    rfl
  · cases h

theorem rename_run {a : Arena} {i : ExprId} (hi : i.index < a.size) (name : String) (line : ℕ) :
    ∃ a' made, (do if isPlaceholder ((← Edit.arena).get i) then Edit.replace i (.ofText name) :
        Edit Unit Empty Unit).run ⟨a, ()⟩ = (.ok (), ⟨a', ()⟩) ∧
      (rewriting name).Rewritten a [(i, line)] a' made := by
  rw [Edit.run_arena]
  cases hhere : isPlaceholder (a.get i) with
  | false => exact ⟨_, _, rfl, .idle hhere⟩
  | true =>
    refine ⟨a.set i (.ofText name), _, rfl, .one hhere (by simp) (fun j _ hji => Arena.get_set_of_ne _ hji) ?_⟩
    have hsince : (a.set i (.ofText name)).since a.size = [] := by simp [Arena.since]
    rw [hsince, Arena.get_set_self _ hi, eq_of_isPlaceholder hhere]
    exact .placeholder

theorem performs (name : String) : (rewriting name).Performs fun root _ => do
    ((← Edit.arena).leaves root).forM fun leaf => do
      if isPlaceholder ((← Edit.arena).get leaf) then Edit.replace leaf (.ofText name) where
  run {space x} owner hnodup _ hinside := by
    rw [Edit.run_arena, Arena.leaves, forM_filter]
    refine Rewritten.forM hnodup hinside fun l₁ i l₂ a parts hl hleft hget => ?_
    have hi : i ∈ space.arena.descendants x := hl ▸ List.mem_append_right _ List.mem_cons_self
    cases hatom : (space.arena.get i).isAtom with
    | true => exact rename_run ((hinside i hi).trans_le hleft.size_le) name owner.line
    | false =>
      refine ⟨a, _, rfl, .idle (Bool.eq_false_iff.2 fun hhere => ?_)⟩
      rw [← hget, eq_of_isPlaceholder hhere] at hatom
      cases hatom
  body {space x} owner y b hbody := by
    refine .arena (.forM hbody fun _ i space₁ _ _ hbody₁ => .arena ?_)
    split
    · rename_i hhere
      have hne : i ≠ y := (rewriting name).ne_of_body? hhere (by simp [hbody₁])
      refine .replace (le_refl ()) ?_
      rwa [HasBody, Arena.body?_set_of_ne _ hne.symm]
    · exact .pure hbody₁ trivial

end Project

/-! ## Elements -/

namespace Element

/-- What is put in place of an element: the call of the constructor with the
tag, the table of the properties in order, and the table of the children at
the positions from one on. -/
inductive Calls (constructor : String) (a : Arena) : Expr → Expr → List ExprId → Prop
  | element {e : Element} {tag keys properties children target} :
      a.get tag = Element.tag e.name →
      keys.map a.get = e.properties.map (fun p => .ofText p.1) →
      a.get properties =
        .atom (.table ⟨keys.zipWith (fun key p => (.expr key, p.2)) e.properties⟩) →
      a.get children =
        .atom (.table ⟨(e.children.getD []).zipIdx.map fun p => (.positional (p.2 + 1), p.1)⟩) →
      a.get target = .ofName constructor →
      Calls constructor a (.atom (.element e)) (.call target [tag, properties, children])
        (tag :: keys ++ [properties, children, target])

/-- Elements, and what is put in their place. -/
def rewriting (constructor : String) : Rewriting where
  here e := match e with
    | .atom (.element _) => true
    | _ => false
  form a _ := Calls constructor a
  literal _ := rfl
  lasts {a a' line e e' parts} hparts h := by
    cases h with
    | element htag hkeys hproperties hchildren htarget =>
      refine .element ?_ ?_ ?_ ?_ ?_
      · rw [hparts _ (by simp), htag]
      · rw [← hkeys]
        exact List.map_congr_left fun key hkey => hparts key (by simp [hkey])
      · rw [hparts _ (by simp), hproperties]
      · rw [hparts _ (by simp), hchildren]
      · rw [hparts _ (by simp), htarget]

variable {constructor : String} {a b : Arena} {i : ExprId} {e : Element}
variable {inner : ExprId → Build Unit}

theorem tag_ne_nil (name : String) : tag name ≠ .atom .nil := by
  unfold tag
  split <;> simp [Expr.ofName, Expr.ofText]

/-- One node is built. -/
theorem builds_alloc (a : Arena) (node : Expr) :
    Builds Eq (Build.alloc node) (fun w i => w.get i = node ∧ w.since a.size = [i]) a a := by
  refine ⟨_, Arena.extends_alloc a node, rfl, Arena.get_alloc_self a node, ?_⟩
  rw [Arena.since, Arena.size_alloc]
  simp
  rfl

theorem builds_idle {m : Build Unit} (h : m.run a = ((), a)) :
    Builds Eq m (fun w _ => w = a) a a := by
  have hrun : m a = ((), a) := h
  exact ⟨a, le_rfl, by rw [hrun], rfl⟩

/-- The entries of the properties, where nothing is left to do inside. -/
theorem builds_properties : ∀ (l : List (String × ExprId)) (t : Table) {b : Arena},
    (∀ b', b ≤ b' → ∀ p ∈ l, (inner p.2).run b' = ((), b')) →
    Builds Eq (l.foldlM (fun t (name, value) => do
        inner value
        Build.pushNamed t name value) t)
      (fun w t' => (w.since b.size).map w.get = l.map (fun p => .ofText p.1) ∧
        t'.entries = t.entries ++
          (w.since b.size).zipWith (fun key p => (.expr key, p.2)) l) b b
  | [], t, b, _ => .pure rfl (by simp [Arena.since_self])
  | (name, value) :: l, t, b, hinner => by
    rw [List.foldlM_cons]
    have hkey : Builds Eq (do inner value; Build.pushNamed t name value) (fun w t' =>
        ∃ key, w.since b.size = [key] ∧ w.get key = .ofText name ∧ t' = t.pushKeyed key value) b b := by
      refine (builds_idle (hinner b le_rfl _ List.mem_cons_self)).bind fun w _ b' _ hb hw => ?_
      subst hb hw
      refine (builds_alloc w (.ofText name)).bind fun w₁ key b₁ _ hb₁ ⟨hget, hsince⟩ => ?_
      exact .pure hb₁ ⟨key, hsince, hget, rfl⟩
    refine hkey.bind fun w₁ t₁ b₁ h₁ hb₁ ⟨key, hsince, hget, ht₁⟩ => ?_
    subst hb₁ ht₁
    refine (builds_properties l (t.pushKeyed key value) fun b' hb' p hp =>
      hinner b' (h₁.trans hb') p (List.mem_cons_of_mem _ hp)).mono fun w₂ t₂ h₂ ⟨hkeys, ht₂⟩ => ?_
    have hboth : w₂.since b.size = key :: w₂.since w₁.size := by
      rw [← Arena.since_append h₁.size_le h₂.size_le, hsince]
      rfl
    rw [hboth]
    refine ⟨?_, ?_⟩
    · rw [List.map_cons, List.map_cons, hkeys, h₂.get_of_eq hget (by simp [Expr.ofText])]
    · rw [ht₂]
      simp [Table.pushKeyed]

/-- The entries of the children likewise. -/
theorem builds_children : ∀ (l : List ExprId) (t : Table) {b : Arena},
    (∀ x ∈ l, (inner x).run b = ((), b)) →
    Builds Eq (l.foldlM (fun t child => do
        inner child
        pure (t.pushPositional child)) t)
      (fun w t' => w = b ∧ t'.entries = t.entries ++
        (l.zipIdx t.positionalCount).map fun p => (.positional (p.2 + 1), p.1)) b b
  | [], t, b, _ => .pure rfl (by simp)
  | child :: l, t, b, hinner => by
    rw [List.forall_mem_cons] at hinner
    rw [List.foldlM_cons]
    have hchild : Builds Eq (do inner child; pure (t.pushPositional child))
        (fun w t' => w = b ∧ t' = t.pushPositional child) b b :=
      (builds_idle hinner.1).bind fun w _ b' _ hb hw => .pure hb ⟨hw, rfl⟩
    refine hchild.bind fun w₁ t₁ b₁ _ hb₁ ⟨hw₁, ht₁⟩ => ?_
    subst hb₁ hw₁ ht₁
    refine (builds_children l (t.pushPositional child) hinner.2).mono fun w₂ t₂ _ ⟨hw₂, ht₂⟩ => ?_
    refine ⟨hw₂, ?_⟩
    have hcount : (t.pushPositional child).positionalCount = t.positionalCount + 1 := by
      simp [Table.pushPositional, Table.positionalCount]
    rw [ht₂, hcount]
    simp [Table.pushPositional]

/-- **The call of an element** is made of new nodes in this order. -/
theorem builds_call (constructor : String) (hinner : ∀ b, a ≤ b → ∀ x ∈ (Expr.atom (.element e)).children,
      (inner x).run b = ((), b)) :
    Builds Eq (call constructor inner e)
      (fun w node => Calls constructor w (.atom (.element e)) node (w.since a.size)) a a := by
  -- six steps, in the order of the nodes that they make
  refine (builds_alloc a (tag e.name)).bind fun w₁ tag a₁ h₁ hg₁ ⟨htag, hsince₁⟩ => ?_
  subst hg₁
  refine (builds_properties e.properties Table.empty fun b hb p hp =>
    hinner b (h₁.trans hb) p.2 (List.mem_append_left _ (List.mem_map_of_mem hp))).bind
    fun w₂ properties a₂ h₂ hg₂ ⟨hkeys, hproperties⟩ => ?_
  subst hg₂
  refine (builds_alloc w₂ (.atom (.table properties))).bind
    fun w₃ propertyTable a₃ h₃ hg₃ ⟨hpropertyTable, hsince₃⟩ => ?_
  subst hg₃
  have h₀₃ : a ≤ w₃ := h₁.trans (h₂.trans h₃)
  refine (builds_children (e.children.getD []) Table.empty fun x hx =>
    hinner w₃ h₀₃ x (List.mem_append_right _ hx)).bind
    fun w₄ children a₄ _ hg₄ ⟨hw₄, hchildren⟩ => ?_
  subst hg₄ hw₄
  refine (builds_alloc w₄ (.atom (.table children))).bind
    fun w₅ childTable a₅ h₅ hg₅ ⟨hchildTable, hsince₅⟩ => ?_
  subst hg₅
  refine (builds_alloc w₅ (.ofName constructor)).bind
    fun w₆ target a₆ h₆ hg₆ ⟨htarget, hsince₆⟩ => ?_
  refine .pure hg₆ ?_
  have h₂₆ : w₂ ≤ w₆ := h₃.trans (h₅.trans h₆)
  -- what was made is what the steps made, in turn
  have hsince : w₆.since a.size =
      tag :: w₂.since w₁.size ++ [propertyTable, childTable, target] := by
    rw [← Arena.since_append h₁.size_le (h₂.trans h₂₆).size_le, hsince₁,
      ← Arena.since_append h₂.size_le h₂₆.size_le,
      ← Arena.since_append h₃.size_le (h₅.trans h₆).size_le, hsince₃,
      ← Arena.since_append h₅.size_le h₆.size_le, hsince₅, hsince₆]
    simp
  rw [hsince]
  -- and still stands, since later steps only put nodes behind
  refine .element ((h₂.trans h₂₆).get_of_eq htag (tag_ne_nil _)) ?_ ?_ ?_ htarget
  · rw [← hkeys]
    exact List.map_congr_left fun key hkey => h₂₆.get_eq key (Arena.mem_since.1 hkey).2
  · rw [(h₅.trans h₆).get_of_eq hpropertyTable (by simp)]
    cases properties
    simpa [Table.empty] using hproperties
  · rw [h₆.get_of_eq hchildTable (by simp)]
    cases children
    simpa [Table.empty, Table.positionalCount] using hchildren

/-- Where nothing is left to do inside, an element is overwritten. -/
theorem lower_run {depth : ℕ} (hget : a.get i = .atom (.element e)) (hi : i.index < a.size)
    (hinner : ∀ b, a.set i (.atom .nil) ≤ b → ∀ x ∈ (Expr.atom (.element e)).children,
      (within constructor depth x).run b = ((), b)) (line : ℕ) :
    ∃ made, (rewriting constructor).Rewritten a [(i, line)]
      ((lower constructor (depth + 1) i).run a).2 made := by
  obtain ⟨b, hext, hb, hcalls⟩ := builds_call constructor hinner
  have hrun : ((lower constructor (depth + 1) i).run a).2 =
      b.set i (call constructor (within constructor depth) e (a.set i (.atom .nil))).1 := by
    rw [lower_succ, Build.run_get, hget, hb]
    rfl
  have hsize : a.size ≤ b.size := by simpa using hext.size_le
  rw [Arena.size_set] at hcalls
  rw [hrun]
  refine ⟨_, .one (by rw [hget]; rfl) (by simpa using hsize) (fun j hj hji => ?_) ?_⟩
  · rw [Arena.get_set_of_ne _ hji, hext.get_eq j (by simpa using hj), Arena.get_set_of_ne _ hji]
  · rw [Arena.get_set_self _ (hi.trans_le hsize), hget]
    have hsince : (b.set i (call constructor (within constructor depth) e
        (a.set i (.atom .nil))).1).since a.size = b.since a.size := by
      rw [Arena.since, Arena.since, Arena.size_set]
    rw [hsince]
    refine (rewriting constructor).lasts (fun p hp => Arena.get_set_of_ne _ ?_) hcalls
    rintro rfl
    exact (Arena.mem_since.1 hp).1.not_gt hi

/-- What a call leads to: the nodes made for it, and what the element had;
and none of the new nodes is an element. -/
theorem Calls.closed {node e' : Expr} {parts : List ExprId}
    (h : Calls constructor a node e' parts) :
    (∀ z ∈ e'.children, z ∈ parts) ∧ (rewriting constructor).here e' = false ∧
      ∀ p ∈ parts, (rewriting constructor).here (a.get p) = false ∧
        ∀ z ∈ (a.get p).children, z ∈ parts ∨ z ∈ node.children := by
  cases h with
  | @element e tag keys properties children target htag hkeys hproperties hchildren htarget =>
    refine ⟨by simp [Expr.call, Expr.children], rfl, ?_⟩
    have hleaf (name : String) : (rewriting constructor).here (Element.tag name) = false ∧
        (Element.tag name).children = [] := by
      unfold Element.tag
      split <;> exact ⟨rfl, rfl⟩
    simp only [List.forall_mem_append, List.forall_mem_cons, List.not_mem_nil, false_implies,
      implies_true, and_true]
    refine ⟨⟨?_, fun key hkey => ?_⟩, ?_, ?_, ?_⟩
    · rw [htag, (hleaf _).2]
      exact ⟨(hleaf _).1, by simp⟩
    · obtain ⟨p, -, hp⟩ := List.mem_map.1 (hkeys ▸ List.mem_map_of_mem hkey)
      rw [← hp]
      exact ⟨rfl, by simp [Expr.ofText, Expr.children]⟩
    · rw [hproperties]
      refine ⟨rfl, fun z hz => ?_⟩
      obtain ⟨entry, hentry, hz⟩ := List.mem_flatMap.1 hz
      rw [← List.map_uncurry_zip_eq_zipWith] at hentry
      obtain ⟨⟨key, p⟩, hp, rfl⟩ := List.mem_map.1 hentry
      obtain ⟨hkey, hp⟩ := List.of_mem_zip hp
      rcases List.mem_pair.1 hz with rfl | rfl
      · exact .inl (by simp [hkey])
      · exact .inr (List.mem_append_left _ (List.mem_map_of_mem hp))
    · rw [hchildren]
      refine ⟨rfl, fun z hz => .inr (List.mem_append_right _ ?_)⟩
      obtain ⟨entry, hentry, hz⟩ := List.mem_flatMap.1 hz
      obtain ⟨p, hp, rfl⟩ := List.mem_map.1 hentry
      rw [List.mem_singleton.1 hz]
      exact List.fst_mem_of_mem_zipIdx hp
    · rw [htarget]
      exact ⟨rfl, by simp [Expr.ofName, Expr.children]⟩

theorem isSugar_of_isAtom (constructor : String) {node : Expr} (hatom : node.isAtom)
    (hhere : (rewriting constructor).here node = false) : node.isSugar = false := by
  cases node with
  | atom x => cases x <;> first | rfl | cases hhere
  | arith x => cases hatom

/-- **Below an element nothing is left to do** once what comes before it has
been gone through. -/
theorem within_run {depth line : ℕ} {l₁ l₂ : List ExprId} {a₀ : Arena}
    {parts : ExprId → List ExprId} (hfirst : a₀.ChildrenFirst (l₁ ++ i :: l₂))
    (hnodup : (l₁ ++ i :: l₂).Nodup) (hinside : ∀ j ∈ l₁ ++ i :: l₂, j.index < a₀.size)
    (hleft : (rewriting constructor).Rewritten a₀ (l₁.map fun i => (i, line)) a parts)
    (hb : a.set i (.atom .nil) ≤ b) {x : ExprId} (hx : x ∈ (a₀.get i).children) :
    (within constructor depth x).run b = ((), b) := by
  obtain ⟨hinside₁, hinside₂⟩ := List.forall_mem_append.1 hinside
  have hi : i.index < a₀.size := hinside₂ i List.mem_cons_self
  -- what is before the element, with the nodes made for it, holds no elements and leads to no others
  let done : Set ExprId :=
    {j | j ∈ l₁ ∨ ∃ p ∈ l₁, (rewriting constructor).here (a₀.get p) ∧ j ∈ parts p}
  have hdone : ∀ j ∈ done, j.index < a.size ∧ j ≠ i ∧
      (rewriting constructor).here (a.get j) = false ∧ ∀ z ∈ (a.get j).children, z ∈ done := by
    have hform {p : ExprId} (hp : p ∈ l₁) (hhere : (rewriting constructor).here (a₀.get p)) :=
      (hleft.form (p, line) (List.mem_map_of_mem hp) hhere).closed
    rintro j (hj | ⟨p, hp, hhere, hj⟩)
    · refine ⟨(hinside₁ j hj).trans_le hleft.size_le, fun hji => ?_, ?_⟩
      · exact (List.nodup_append.1 hnodup).2.2 j hj i List.mem_cons_self hji
      · cases hhere : (rewriting constructor).here (a₀.get j) with
        | true =>
          obtain ⟨hchildren, hother, -⟩ := hform hj hhere
          exact ⟨hother, fun z hz => .inr ⟨j, hj, hhere, hchildren z hz⟩⟩
        | false =>
          rw [hleft.kept j (hinside₁ j hj) fun _ _ _ => hhere]
          exact ⟨hhere, fun z hz => .inl (hfirst.mem_of_prefix hj z hz)⟩
    · have hnew := Arena.mem_since.1
        (hleft.mem_since (p := (p, line)) (List.mem_map_of_mem hp) hhere hj)
      obtain ⟨hother, hchildren⟩ := (hform hp hhere).2.2 j hj
      refine ⟨hnew.2, ?_, hother, fun z hz => ?_⟩
      · rintro rfl
        exact hnew.1.not_gt hi
      · rcases hchildren z hz with hz | hz
        · exact .inr ⟨p, hp, hhere, hz⟩
        · exact .inl (hfirst.mem_of_prefix hp z hz)
  have hget : ∀ j ∈ done, b.get j = a.get j := fun j hj => by
    obtain ⟨hinside, hne, -⟩ := hdone j hj
    rw [hb.get_eq j (by simpa using hinside), Arena.get_set_of_ne _ hne]
  have hbelow : ∀ y ∈ b.descendants x, y ∈ done := fun y hy =>
    Arena.mem_of_mem_descendants (fun j hj z hz => (hdone j hj).2.2.2 z (hget j hj ▸ hz))
      (.inl (hfirst l₁ i l₂ rfl x hx)) hy
  rw [within, Build.run_get]
  refine forM_lower_idle constructor depth fun y hy => ?_
  obtain ⟨hy, hatom⟩ := List.mem_filter.1 hy
  refine isSugar_of_isAtom constructor hatom ?_
  rw [hget y (hbelow y hy)]
  exact (hdone y (hbelow y hy)).2.2.1

/-- **No body is lost.** -/
theorem lower_hasBody (constructor : String) {y : ExprId} {body : Block} : ∀ (depth : ℕ)
    (i : ExprId) {a : Arena}, HasBody y body () a →
    Builds (HasBody y body) (lower constructor depth i) (fun _ _ => True) () a
  | 0, _, _, h => .pure h trivial
  | depth + 1, i, a, h => by
    have hm : Makes (HasBody y body) fun _ _ => True :=
      ⟨fun _ _ => trivial, fun h _ _ => builds_alloc_hasBody h _⟩
    rw [lower_succ]
    refine .get ?_
    split
    · rename_i e hget
      have hne : i ≠ y := (rewriting constructor).ne_of_body? (by rw [hget]; rfl) (by simp [h])
      have hset {a : Arena} (node : Expr) (h : HasBody y body () a) :
          HasBody y body () (a.set i node) := by
        rwa [HasBody, Arena.body?_set_of_ne node hne.symm]
      refine (Builds.modify (le_refl ()) (hset (.atom .nil) h)).bind fun _ _ a₁ _ h₁ _ => ?_
      refine (hm.element h₁ (fun _ _ => trivial) fun _ h₂ _ => ?_).bind
        fun _ node a₂ _ h₂ _ => .modify (le_refl ()) (hset node h₂)
      exact .get (.forM h₂ fun _ z _ _ _ h => lower_hasBody constructor depth z h)
    · exact .pure h trivial

theorem performs (constructor : String) : (rewriting constructor).Performs fun root _ => do
    let arena ← Edit.arena
    Edit.build ((arena.leaves root).forM (lower constructor (arena.size + 1))) where
  run {space x} owner hnodup hfirst hinside := by
    rw [Edit.run_arena, Arena.leaves, forM_filter, Edit.build_forM]
    refine Rewritten.forM hnodup hinside fun l₁ i l₂ a parts hl hleft hget => ?_
    rw [hl] at hnodup hfirst hinside
    have hi : i.index < space.arena.size :=
      hinside i (List.mem_append_right _ List.mem_cons_self)
    cases hhere : (rewriting constructor).here (a.get i) with
    | true =>
      -- a node of the kind is an element
      obtain ⟨e, he⟩ : ∃ e, a.get i = .atom (.element e) := by
        unfold rewriting at hhere
        dsimp only at hhere
        split at hhere
        · exact ⟨_, ‹_›⟩
        · cases hhere
      have hatom : (space.arena.get i).isAtom := by rw [← hget, he]; rfl
      obtain ⟨made, hmade⟩ := lower_run he (hi.trans_le hleft.size_le) (fun b hb x hx =>
        within_run hfirst hnodup hinside hleft hb (by rwa [← hget, he])) owner.line
      exact ⟨_, made, by rw [if_pos hatom, Edit.run_build], hmade⟩
    -- any other is passed over, or lowered to itself
    | false =>
      refine ⟨a, _, ?_, .idle hhere⟩
      rw [Edit.run_build]
      cases hatom : (space.arena.get i).isAtom with
      | true =>
        rw [if_pos rfl, lower_idle constructor
          (isSugar_of_isAtom constructor (hget ▸ hatom) hhere)]
      | false => rfl
  body {space x} owner y b hbody :=
    .arena (.build (.forM hbody fun _ i _ _ _ h => lower_hasBody constructor _ i h))

end Element

/-! ## Parsed chunks -/

section Parsed

variable {tokens : List Token} {c : Chunk}

/-- **Passes over expressions rewrite in place and nothing else.** Of a
parsed chunk each of them leaves every list and every node that is not of
its kind; those of its kind are replaced, each once, by the call of a
literal that assigns and returns, by the call of the constructor, and by the
name of the project. -/
theorem passes_in_place (h : parse tokens = .ok c) :
    AssignmentExpr.rewriting.InPlace c (hoistAssignments c) ∧
      (∀ constructor, (Element.rewriting constructor).InPlace c (expandElements constructor c)) ∧
      ∀ name, (Project.rewriting name).InPlace c (nameProject name c) :=
  ⟨AssignmentExpr.performs.inPlace h, fun constructor => (Element.performs constructor).inPlace h,
    fun name => (Project.performs name).inPlace h⟩

/-- Elements, assignments and a placeholder, inside each other and in a
function literal. -/
theorem passes_in_place_nested : ∃ tokens c,
    tokenize "return <a b={<c/>}>{(x = (y += 1))}</a>, function() return __LU_PROJECT__ end" =
        .ok tokens ∧ parse tokens = .ok c ∧
      (c.arena.since 0).countP (fun i => AssignmentExpr.rewriting.here (c.arena.get i)) = 2 ∧
      (c.arena.since 0).countP (fun i => (Element.rewriting "h").here (c.arena.get i)) = 2 ∧
      (c.arena.since 0).countP (fun i => Project.isPlaceholder (c.arena.get i)) = 1 ∧
      AssignmentExpr.rewriting.InPlace c (hoistAssignments c) ∧
      (Element.rewriting "h").InPlace c (expandElements "h" c) ∧
      (Project.rewriting "p").InPlace c (nameProject "p" c) := by
  obtain ⟨tokens, c, htokens, hparse, hassignments, helements, hplaceholders⟩ :=
    exists_parsed (P := fun _ c =>
      (c.arena.since 0).countP (fun i => AssignmentExpr.rewriting.here (c.arena.get i)) = 2 ∧
        (c.arena.since 0).countP (fun i => (Element.rewriting "h").here (c.arena.get i)) = 2 ∧
        (c.arena.since 0).countP (fun i => Project.isPlaceholder (c.arena.get i)) = 1)
      "return <a b={<c/>}>{(x = (y += 1))}</a>, function() return __LU_PROJECT__ end"
      (by decide +kernel)
  obtain ⟨hhoisted, hexpanded, hnamed⟩ := passes_in_place hparse
  exact ⟨tokens, c, htokens, hparse, hassignments, helements, hplaceholders, hhoisted,
    hexpanded "h", hnamed "p"⟩

end Parsed

end LuaSugar
