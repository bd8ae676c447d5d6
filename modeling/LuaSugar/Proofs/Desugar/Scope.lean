import Mathlib
import LuaSugar.Proofs.Pass.Scope
import LuaSugar.Proofs.Desugar.Making
import LuaSugar.Proofs.Desugar.Sequence
/-!
# Desugaring and the scope of further arguments

Passes move expressions within a function, with one exception: what an
assignment expression holds goes into a literal without parameters. So a
scoped chunk stays scoped, provided that no `...` stands below an
assignment expression.
-/

namespace LuaSugar

variable {w w' : Scopes} {a : Arena} {v : Bool} {p : Prop}

/-! ## Building -/

namespace Scopes

/-- A plain node is shut if its children are closed. -/
theorem shut_of_isPlain {e : Expr} (he : e.isPlain) (hchildren : ∀ x ∈ e.children, x ∈ w.closed) :
    w.Shut e := by
  refine ⟨?_, hchildren⟩
  cases e with
  | atom x => cases x <;> first | rfl | cases he
  | arith x => rfl

theorem node_of_isPlain {e : Expr} (he : e.isPlain) : w.Node e := by
  refine ⟨fun x hx => ?_, fun x hx => ?_⟩
  · unfold Expr.scoped at hx
    split at hx
    · cases he
    · simp at hx
  · unfold Expr.assigned at hx
    split at hx
    · cases he
    · simp at hx

theorem variadic_of_isPlain {e : Expr} (he : e.isPlain) : e.variadic? = none := by
  cases e with
  | atom x => cases x <;> first | rfl | cases he
  | arith x => rfl

/-- Plain nodes are as closed as what they are made of. -/
theorem makes (p : Prop) : Makes Good (fun w i => p → i ∈ w.closed) where
  mono h hx hp := h.closed (hx hp)
  node h he hchildren := (h.alloc (node_of_isPlain he)).mono fun _ _ _ hi hp =>
    hi (shut_of_isPlain he fun x hx => hchildren x hx hp)

/-- **A function literal is closed**, whatever its body holds. -/
theorem Good.function (h : w.Good a) (func : FuncBody)
    (hbody : ∀ s ∈ func.body, w.Fits func.variadic s) :
    Builds Good (Build.alloc (.atom (.func func))) (fun w' i => i ∈ w'.closed) w a := by
  exact (h.alloc (node_func.2 hbody)).mono fun _ _ _ hi => hi ⟨rfl, by simp [Expr.children]⟩

theorem makesLiterals : MakesLiterals Good (fun w i => i ∈ w.closed) where
  mono h hx := h.closed hx
  node h he hchildren := (h.alloc (node_of_isPlain he)).mono fun _ _ _ hi =>
    hi (shut_of_isPlain he hchildren)
  closure params h hs hroots := h.function _ fun t ht => by
    obtain rfl := List.mem_singleton.1 ht
    exact .simple (StmtKind.blocks_of_isPlain hs) fun _ => hroots

end Scopes

open Scopes

/-! ## Assignments -/

theorem AssignmentExpr.hoist_keepsScope {space : Workspace Unit} (h : w.Good space.arena)
    (line : ℕ) (y : ExprId) : Edits Good (hoist line y) (fun _ _ => True) w space := by
  unfold hoist
  refine Edits.arena ?_
  split
  · rename_i op target value hget
    -- what an assignment expression holds is shut, so it may go into a literal
    obtain ⟨ht, hv⟩ : target ∈ w.closed ∧ value ∈ w.closed := by
      have hassigned := (h.nodes y).assigned
      simpa [hget, Expr.assigned] using hassigned
    have hy : y.index < space.arena.size := Arena.inside_of_get_ne y fun hn => by simp [hget] at hn
    refine Edits.bind (Edits.build (h.function
      ⟨[], false, [statement op target value line, .ret [target] line]⟩ fun s hs => ?_))
      fun w₁ closure space₁ h₁ hg₁ hclosure => ?_
    · rcases List.mem_cons.1 hs with rfl | hs
      · cases op <;>
          exact .simple rfl (by simp [statement, Stmt.assign, StmtKind.roots, ht, hv])
      · obtain rfl := List.mem_singleton.1 hs
        exact .simple rfl (by simp [Stmt.ret, StmtKind.roots, ht])
    · have hplain : (Expr.call closure []).isPlain := rfl
      have hchildren : ∀ x ∈ (Expr.call closure []).children, x ∈ w₁.closed := by
        simpa [Expr.call, Expr.children] using hclosure
      -- the call in its place is shut if the assignment was
      obtain ⟨w₂, h₂, hg₂⟩ := hg₁.set (x := y) (e := .call closure [])
        (hg₁.arena ▸ hy.trans_le (h.arena ▸ h₁.size)) (node_of_isPlain hplain)
        (fun _ => shut_of_isPlain hplain hchildren) (by
          rw [variadic_of_isPlain hplain, hg₁.arena, h₁.variadic y (h.arena ▸ hy), ← h.arena, hget]
          rfl)
      exact Edits.replace h₂ hg₂
  · exact Edits.pure h trivial

namespace Pass

variable {σ ε : Type}

/-- A pass over expressions only. -/
theorem KeepsScope.ofExpression {f : ExprId → Stmt → Edit σ ε Unit}
    (hf : ∀ {w : Scopes} {x} (owner : Stmt) {space}, w.Good space.arena →
      Edits Good (f x owner) (fun _ _ => True) w space) : (ofExpression f).KeepsScope where
  first _ _ := rfl
  expression := hf
  statement _ _ h hslots := Edits.pure h ⟨hslots, le_rfl⟩

/-- A pass over statements only. -/
theorem KeepsScope.ofStatement {f : Cursor → Edit σ ε Cursor}
    (hf : ∀ {w : Scopes} {v} (c : Cursor) {space}, w.Good space.arena →
      (∀ slot ∈ c.slots, w.Fits v slot.stmt) →
      Edits Good (f c) (fun w' c' => (∀ slot ∈ c'.slots, w'.Fits v slot.stmt) ∧
        (c'.after.countP fun slot => !slot.fresh) ≤ c.after.countP fun slot => !slot.fresh)
        w space) : (ofStatement f).KeepsScope where
  first _ _ := rfl
  expression _ _ h := Edits.pure h trivial
  statement := hf

end Pass

theorem AssignmentExpr.keepsScope : AssignmentExpr.pass.KeepsScope :=
  .ofExpression fun owner _ h => Edits.arena <| Edits.forM h fun _ y _ _ _ h' =>
    hoist_keepsScope h' owner.line y

/-! ## Compound assignments and imports -/

/-- What a statement owns is closed where `...` has no place. -/
theorem Scopes.Fits.root {s : Stmt} {x : ExprId} (h : w.Fits v s) (hx : x ∈ s.kind.roots) :
    v = false → x ∈ w.closed :=
  fun hv => (fits_iff.1 h).1 hv x hx

theorem CompoundAssignment.keepsScope : CompoundAssignment.pass.KeepsScope := by
  refine .ofStatement fun {w v} c space h hslots => ?_
  split
  · rename_i target op value hkind
    have hfocus : w.Fits v c.stmt := hslots c.focus (Cursor.mem_slots.2 (.inr (.inl rfl)))
    have ht := hfocus.root (x := target) (by simp [hkind, StmtKind.roots])
    have hv := hfocus.root (x := value) (by simp [hkind, StmtKind.roots])
    refine Edits.bind (Edits.build ((makes (v = false)).binary h op ht hv))
      fun w₁ result space₁ h₁ hg₁ hr => Edits.pure hg₁ ⟨?_, le_rfl⟩
    refine Cursor.forall_replace (fun slot hs => (hslots slot hs).mono h₁.closed) ?_
    exact .simple rfl fun hfixed => by
      simp [Stmt.assign, StmtKind.roots, h₁.closed (ht hfixed), hr hfixed]
  · exact Edits.pure h ⟨hslots, le_rfl⟩

theorem Import.keepsScope : Import.pass.KeepsScope := by
  refine .ofStatement fun {w v} c space h hslots => ?_
  dsimp only
  split
  · rename_i binding source hkind
    have hfocus : w.Fits v c.stmt := hslots c.focus (Cursor.mem_slots.2 (.inr (.inl rfl)))
    have hsource := hfocus.root (x := source) (by simp [hkind, StmtKind.roots])
    -- outside of literals, the call is as shut as its source
    have hcall : Builds Good (do Build.call (← Build.name "require") [source])
        (fun w' i => v = false → i ∈ w'.closed) w space.arena := by
      refine Builds.bind ((makes (v = false)).name h "require") fun w₁ target a₁ h₁ hg₁ ht => ?_
      exact (makes (v = false)).call hg₁ ht (by simpa using (makes _).mono h₁ hsource)
    refine Edits.bind (Edits.build hcall) fun w₁ module space₁ h₁ hg₁ hmodule => ?_
    cases binding with
    | default name =>
      refine Edits.pure hg₁ ⟨?_, le_rfl⟩
      refine Cursor.forall_replace (fun slot hs => (hslots slot hs).mono h₁.closed) ?_
      exact .simple rfl (by simpa [Stmt.localDecl, StmtKind.roots] using hmodule)
    | named names =>
      refine Edits.bind (Edits.state hg₁) fun w₂ count space₂ h₂ hg₂ _ => ?_
      refine Edits.bind (Edits.setState hg₂) fun w₃ _ space₃ h₃ hg₃ _ => ?_
      refine Edits.bind (Edits.build (Builds.mapM (Q := fun w' i => i ∈ w'.closed)
        (fun h hi => makesLiterals.mono h hi) hg₃ fun w' name a' _ _ hg' =>
          makesLiterals.readMember hg' _ name)) fun w₄ values space₄ h₄ hg₄ hvalues => ?_
      have h₁₄ : w₁ ≤ w₄ := (h₂.trans h₃).trans h₄
      -- the holder and the names are declarations without lists
      refine Edits.pure hg₄ ⟨?_, le_rfl⟩
      refine Cursor.forall_replace (Cursor.forall_insertBefore
        (fun slot hs => (hslots slot hs).mono (h₁.trans h₁₄).closed) ?_) ?_
      · exact .simple rfl fun hv => by
          simpa [Stmt.localDecl, StmtKind.roots] using h₁₄.closed (hmodule hv)
      · exact .simple rfl fun _ => hvalues.2
  · exact Edits.pure h ⟨hslots, le_rfl⟩

/-! ## Intrinsics -/

namespace Intrinsic

/-- The function that a literal takes over has the scope it had. -/
theorem fits_definedFunction {func : FuncBody} (path : FunctionPath)
    (h : ∀ s ∈ func.body, w.Fits func.variadic s) :
    ∀ s ∈ (definedFunction path func).body, w.Fits (definedFunction path func).variadic s := by
  unfold definedFunction
  split <;> exact h

theorem decorate_keepsScope (h : w.Good a) {intrinsic : ExprId} {args : List ExprId}
    (signature : String) {func : FuncBody} (hi : p → intrinsic ∈ w.closed)
    (hargs : ∀ x ∈ args, p → x ∈ w.closed) (hbody : ∀ s ∈ func.body, w.Fits func.variadic s) :
    Builds Good (decorate intrinsic args signature func) (fun w' i => p → i ∈ w'.closed) w a := by
  unfold decorate
  refine Builds.bind (makesLiterals.text h signature) fun w₁ text a₁ h₁ hg₁ htext => ?_
  refine Builds.bind (hg₁.function func fun s hs => (hbody s hs).mono h₁.closed)
    fun w₂ literal a₂ h₂ hg₂ hliteral => ?_
  refine (makes p).call hg₂ ((makes p).mono (h₁.trans h₂) hi) fun x hx hp => ?_
  rcases List.mem_append.1 hx with hx | hx
  · exact (h₁.trans h₂).closed (hargs x hx hp)
  · rcases List.mem_cons.1 hx with rfl | hx
    · exact h₂.closed htext
    · rwa [List.mem_singleton.1 hx]

theorem decorateNext_keepsScope {space : Workspace Unit} (h : w.Good space.arena) (line : ℕ)
    {intrinsic : ExprId} {args : List ExprId} (next : Cursor)
    (hi : v = false → intrinsic ∈ w.closed) (hargs : ∀ x ∈ args, v = false → x ∈ w.closed)
    (hnext : w.Fits v next.stmt) :
    Edits Good (decorateNext line intrinsic args next)
      (fun w' => Decorated (fun s => w'.Fits v s) (fun s => w'.Fits v s) next) w space := by
  have hignore {w' : Scopes} {line : ℕ} : w'.Fits v (.ignore line) :=
    .simple rfl fun _ => by simp [Stmt.ignore, StmtKind.roots]
  have hassign {w' : Scopes} {target call : ExprId} (ht : target ∈ w'.closed)
      (hc : v = false → call ∈ w'.closed) : w'.Fits v (.assign [target] [call] next.line) :=
    .simple rfl fun hv => by simp [Stmt.assign, StmtKind.roots, ht, hc hv]
  unfold decorateNext
  split
  -- a new call is as closed as the intrinsic and what it is given
  · rename_i names values hkind
    have hcall : Builds Good (do
        let descriptors ← names.mapM (descriptor next.line)
        Build.call intrinsic (args ++ descriptors))
        (fun w' i => v = false → i ∈ w'.closed) w space.arena := by
      refine Builds.bind (Builds.mapM (Q := fun w' i => i ∈ w'.closed)
        (fun h hi => makesLiterals.mono h hi) h fun w' name a' _ _ hg' =>
          makesLiterals.descriptor hg' next.line name) fun w₁ descriptors a₁ h₁ hg₁ hd => ?_
      refine (makes _).call hg₁ ((makes _).mono h₁ hi) fun x hx hv => ?_
      rcases List.mem_append.1 hx with hx | hx
      · exact h₁.closed (hargs x hx hv)
      · exact hd.2 x hx
    refine Edits.bind (Edits.build hcall) fun w₁ call space₁ h₁ hg₁ hc => ?_
    refine Edits.pure hg₁ ⟨rfl, rfl, hnext.mono h₁.closed, .inr ⟨_, rfl, ?_⟩, hignore⟩
    exact .simple rfl (by simpa [Stmt.call, StmtKind.roots] using hc)
  · rename_i path func hkind
    have hbody : ∀ s ∈ func.body, w.Fits func.variadic s := by
      have := (fits_iff.1 hnext).2 func.body (by simp [hkind, StmtKind.blocks])
      rwa [hkind] at this
    refine Edits.bind (Edits.build (makesLiterals.path h path.segments))
      fun w₁ i? space₁ h₁ hg₁ hi? => ?_
    cases i? with
    | none =>
      refine Edits.pure hg₁ ⟨rfl, rfl, hignore, .inl rfl, .simple rfl fun hv => ?_⟩
      simpa [StmtKind.roots, h₁.closed (hi hv)] using fun x hx => h₁.closed (hargs x hx hv)
    | some target =>
      refine Edits.bind (Edits.build (decorate_keepsScope hg₁ _ ((makes _).mono h₁ hi)
        (fun x hx => (makes _).mono h₁ (hargs x hx))
        (fits_definedFunction path fun s hs => (hbody s hs).mono h₁.closed)))
        fun w₂ call space₂ h₂ hg₂ hc => ?_
      exact Edits.pure hg₂ ⟨rfl, rfl, hassign (h₂.closed (hi?.2 target rfl)) hc, .inl rfl, hignore⟩
  · rename_i name func hkind
    have hbody : ∀ s ∈ func.body, w.Fits func.variadic s := by
      have := (fits_iff.1 hnext).2 func.body (by simp [hkind, StmtKind.blocks])
      rwa [hkind] at this
    refine Edits.bind (Edits.build (makesLiterals.name h name)) fun w₁ target space₁ h₁ hg₁ ht => ?_
    refine Edits.bind (Edits.build (decorate_keepsScope hg₁ _ ((makes _).mono h₁ hi)
      (fun x hx => (makes _).mono h₁ (hargs x hx)) fun s hs => (hbody s hs).mono h₁.closed))
      fun w₂ call space₂ h₂ hg₂ hc => ?_
    refine Edits.pure hg₂ ⟨rfl, rfl, hassign (h₂.closed ht) hc, .inl rfl, ?_⟩
    exact .simple rfl fun _ => by simp [Stmt.localDecl, StmtKind.roots]
  · exact Edits.throw h

theorem keepsScope : pass.KeepsScope := by
  refine .ofStatement fun {w v} c space h hslots => ?_
  split
  · rename_i intrinsic args hkind
    have hfocus : w.Fits v c.stmt := hslots c.focus (Cursor.mem_slots.2 (.inr (.inl rfl)))
    have hi := hfocus.root (x := intrinsic) (by simp [hkind, StmtKind.roots])
    have hargs : ∀ x ∈ args, v = false → x ∈ w.closed := fun x hx =>
      hfocus.root (by simp [hkind, StmtKind.roots, hx])
    rcases c with ⟨before, focus, after⟩
    cases after with
    | nil => exact Edits.throw h
    | cons slot after =>
      refine Edits.bind (decorateNext_keepsScope h _ ⟨focus :: before, slot, after⟩ hi hargs
        (hslots slot (Cursor.mem_slots.2 (by simp)))) fun w₁ result space₁ h₁ hg₁ hd => ?_
      have hkept : ∀ slot ∈ before ++ after, w₁.Fits v slot.stmt := fun slot hs =>
        (hslots slot (Cursor.mem_slots.2 (by simp at hs ⊢; tauto))).mono h₁.closed
      exact Edits.pure hg₁ ⟨hd.forall_slots (fun _ => id) (fun _ => id)
        (fun slot hs => hkept slot (List.mem_append_left _ hs))
        fun slot hs => hkept slot (List.mem_append_right _ hs), hd.countP_le⟩
  · exact Edits.pure h ⟨hslots, le_rfl⟩

end Intrinsic

/-! ## Elements -/

namespace Element

/-- **Lowering an element**: the call is as closed as the element was. -/
theorem lower_keepsScope (constructor : String) : ∀ (depth : ℕ) {w : Scopes} {a : Arena}
    (id : ExprId), w.Good a →
    Builds Good (lower constructor depth id) (fun _ _ => True) w a
  | 0, w, a, id, h => Builds.pure h trivial
  | depth + 1, w, a, id, h => by
    rw [lower_succ]
    refine Builds.get ?_
    split
    · rename_i e hget
      have hid : id.index < a.size := Arena.inside_of_get_ne id fun hn => by simp [hget] at hn
      -- what the element holds is as closed as the element
      have hheld : ∀ x ∈ (Expr.atom (.element e)).children, id ∈ w.closed → x ∈ w.closed := by
        intro x hx hclosed
        have hshut := (h.shut id hclosed).2
        rw [hget] at hshut
        exact hshut x hx
      have hm := makes (id ∈ w.closed)
      obtain ⟨w₁, h₁, hg₁⟩ := h.set hid (e := .atom .nil) (node_of_isPlain rfl)
        (fun _ => shut_of_isPlain rfl (by simp [Expr.children])) (by rw [hget]; rfl)
      refine Builds.bind (Builds.modify h₁ hg₁) fun w₂ _ a₂ h₂ hg₂ _ => ?_
      refine Builds.bind (hm.element hg₂ (fun x hx => hm.mono h₂ (hheld x hx)) fun _ h' _ =>
        Builds.get (Builds.forM h' fun _ y _ _ _ h'' => lower_keepsScope constructor depth y h''))
        fun w₃ node a₃ h₃ hg₃ hnode => ?_
      obtain ⟨hplain, hids⟩ := hnode
      have h₀₃ : w ≤ w₃ := h₂.trans h₃
      obtain ⟨w₄, h₄, hg₄⟩ := hg₃.set (x := id) (hg₃.arena ▸ hid.trans_le (h.arena ▸ h₀₃.size))
        (node_of_isPlain hplain)
        (fun hclosed => shut_of_isPlain hplain fun x hx =>
          hids x hx (h₀₃.old id (h.arena ▸ hid) hclosed))
        (by
          rw [variadic_of_isPlain hplain, hg₃.arena, h₀₃.variadic id (h.arena ▸ hid), ← h.arena, hget]
          rfl)
      exact Builds.modify h₄ hg₄
    · exact Builds.pure h trivial

theorem keepsScope (constructor : String) : (pass constructor).KeepsScope :=
  .ofExpression fun _ _ h => Edits.arena <| Edits.build <| Builds.forM h fun _ y _ _ _ h' =>
    lower_keepsScope constructor _ y h'

end Element

/-! ## Parsed chunks -/

variable {c : Chunk} {i : ExprId} {tokens : List Token}

/-- What is reached occurs somewhere. -/
theorem Chunk.Reaches.occurs (h : c.Reaches i) : ∃ v, c.Occurs v i := by
  obtain ⟨x, hx, hxi⟩ := h
  induction hxi with
  | refl =>
    obtain ⟨v, hx⟩ := Block.exists_scoped true hx
    exact ⟨v, .body hx⟩
  | tail _ hjk ih =>
    obtain ⟨v, hj⟩ := ih
    rcases Expr.exists_scoped hjk with hk | ⟨u, hk⟩
    · exact ⟨v, .child hj hk⟩
    · exact ⟨u, .literal hj hk⟩

/-- **A parsed chunk reaches its whole arena.** -/
theorem parse_reaches (h : parse tokens = .ok c) (hi : i.index < c.arena.size) : c.Reaches i := by
  have howned := parse_owned h
  -- ids above are reached, and whoever refers to an id is above it
  induction hn : c.arena.size - i.index using Nat.strong_induction_on generalizing i with
  | _ n ih =>
    have hmem : i ∈ (↑c.arena.references : Multiset ExprId) + ↑(Block.ids c.body) := by
      rw [howned.once]
      exact Multiset.mem_coe.2 (List.mem_map.2 ⟨i.index, List.mem_range.2 hi, rfl⟩)
    rcases Multiset.mem_add.1 hmem with hmem | hmem
    · obtain ⟨j, hj⟩ : ∃ j, c.arena.Refers j i := by
        obtain ⟨e, he, hx⟩ := List.mem_flatMap.1 (Multiset.mem_coe.1 hmem)
        obtain ⟨j, -, rfl⟩ := Arena.mem_nodes.1 he
        exact ⟨j, hx⟩
      have hlt := howned.lower j i hj
      have hj' := Arena.inside_of_refers hj
      obtain ⟨x, hx, hxj⟩ := ih _ (by omega) hj' rfl
      exact ⟨x, hx, hxj.tail hj⟩
    · exact ⟨i, Multiset.mem_coe.1 hmem, .refl⟩

/-- A parsed chunk is scoped if nothing below its fixed ids is `...`, and
only then. -/
theorem parse_scoped_iff (h : parse tokens = .ok c) : c.Scoped ↔
    ∀ x ∈ c.fixedIds, ∀ j ∈ c.arena.descendants x, (c.arena.get j).isVararg = false := by
  obtain ⟨rank, hsound⟩ := (parse_chunk_sound h).arena
  refine ⟨fun hscoped x hx j hj => ?_, Chunk.scoped_of_fixedIds hsound.ranked⟩
  have hoccurs : c.Occurs false x := by
    rcases Chunk.mem_fixedIds.1 hx with hx | ⟨i, hx⟩
    · exact .body hx
    · obtain ⟨v, hi⟩ := (parse_reaches h (Arena.inside_of_refers (Expr.mem_refs_of_scoped hx))).occurs
      exact .literal hi hx
  have hbelow : c.Occurs false j := Arena.mem_of_mem_descendants (S := {y | c.Occurs false y})
    (fun _ hi _ hk => .child hi hk) hoccurs hj
  by_contra hvararg
  exact absurd (hscoped false j hbelow (Bool.eq_true_of_not_eq_false hvararg)) (by simp)

/-- Of a scoped parsed chunk whose assignment expressions hold no `...`,
the ids without a `...` below them are closed. -/
theorem Chunk.Closes.of_parse (h : parse tokens = .ok c) (hscoped : c.Scoped)
    (hassigned : ∀ i, ∀ x ∈ (c.arena.get i).assigned, ∀ j ∈ c.arena.descendants x,
      (c.arena.get j).isVararg = false) : c.Closes := by
  have hsound := parse_chunk_sound h
  obtain ⟨rank, harena⟩ := hsound.arena
  have hfixed := (parse_scoped_iff h).1 hscoped
  let w : Scopes := ⟨c.arena, {i | i.index < c.arena.size ∧
    ∀ j ∈ c.arena.descendants i, (c.arena.get j).isVararg = false}⟩
  refine ⟨w.closed, ⟨rfl, fun i hi => hi.1, fun i hi => ?_, fun i => ⟨fun x hx => ?_,
    fun x hx => ?_⟩⟩, fun s hs x hx => ?_⟩
  · refine ⟨hi.2 i (c.arena.self_mem_descendants i), fun x hx => ?_⟩
    refine ⟨harena.ranked.inside i x (Arena.refers_of_mem_children hx), fun j hj => hi.2 j ?_⟩
    rw [harena.ranked.descendants_eq]
    exact List.mem_append_left _ (List.mem_flatMap.2 ⟨x, hx, hj⟩)
  · exact ⟨harena.ranked.inside i x (Expr.mem_refs_of_scoped hx),
      hfixed x (Chunk.mem_fixedIds.2 (.inr ⟨i, hx⟩))⟩
  · refine ⟨harena.ranked.inside i x (Arena.refers_of_mem_children ?_), hassigned i x hx⟩
    unfold Expr.assigned at hx
    split at hx
    · rename_i hget
      rw [hget]
      exact hx
    · simp at hx
  · have hbody := Block.mem_scoped.2 ⟨s, hs, hx⟩
    exact ⟨hsound.inside x (Block.mem_ids_of_scoped hbody),
      hfixed x (Chunk.mem_fixedIds.2 (.inl hbody))⟩

/-- Desugaring keeps it so, also when it fails. -/
theorem Chunk.Closes.desugared (constructor : String) (h : c.Closes) :
    (desugar constructor c).1.Closes := by
  have h₁ : (hoistAssignments c).Closes := AssignmentExpr.keepsScope.run h ()
  have h₂ : (expandCompound _).Closes := CompoundAssignment.keepsScope.run h₁ ()
  have h₃ : (expandImports _).Closes := Import.keepsScope.run h₂ 0
  have h₄ : (expandIntrinsics _).1.Closes := Intrinsic.keepsScope.run h₃ ()
  unfold desugar
  rcases hpass : expandIntrinsics (expandImports (expandCompound (hoistAssignments c))) with
    ⟨c', _ | e⟩
  · rw [hpass] at h₄
    exact (Element.keepsScope constructor).run h₄ ()
  · rw [hpass] at h₄
    exact h₄

/-- **Desugaring keeps a parsed chunk scoped**, unless an assignment
expression holds a `...` of the function around it. -/
theorem desugar_scoped {constructor : String} (h : parse tokens = .ok c) (hscoped : c.Scoped)
    (hassigned : ∀ i, ∀ x ∈ (c.arena.get i).assigned, ∀ j ∈ c.arena.descendants x,
      (c.arena.get j).isVararg = false) : (desugar constructor c).1.Scoped :=
  ((Chunk.Closes.of_parse h hscoped hassigned).desugared constructor).scoped

/-- The tokens of `return function(...) return (a = nil), ... end`. -/
def varargBeside : List Token :=
  [.keyword .return_, .keyword .function_, .operator .leftParen, .operator .ellipsis,
    .operator .rightParen, .keyword .return_, .operator .leftParen, .name "a", .operator .assign,
    .keyword .nil_, .operator .rightParen, .operator .comma, .operator .ellipsis,
    .keyword .end_].map fun kind => ⟨kind, 1, .plain⟩

def varargBesideChunk : Chunk :=
  ⟨⟨#[.ofName "a", .atom .nil, .arith (.assign .set ⟨0⟩ ⟨1⟩), .atom .vararg,
    .atom (.func ⟨[], true, [.ret [⟨2⟩, ⟨3⟩] 1]⟩)]⟩, [.ret [⟨4⟩] 1]⟩

theorem desugar_scoped_beside : parse varargBeside = .ok varargBesideChunk ∧
    varargBesideChunk.Scoped ∧ (desugar "h" varargBesideChunk).1.Scoped := by
  have hparse : parse varargBeside = .ok varargBesideChunk := rfl
  have hscoped : varargBesideChunk.Scoped := (parse_scoped_iff hparse).2 (by decide +kernel)
  have hassigned : ∀ e ∈ varargBesideChunk.arena.nodes.toList, ∀ x ∈ e.assigned,
      ∀ j ∈ varargBesideChunk.arena.descendants x,
        (varargBesideChunk.arena.get j).isVararg = false := by decide +kernel
  exact ⟨hparse, hscoped, desugar_scoped hparse hscoped
    ((Arena.forall_get (by simp [Expr.assigned])).2 hassigned)⟩

/-- The tokens of `print((a = ...))`. -/
def varargAssigned : List Token :=
  [.name "print", .operator .leftParen, .operator .leftParen, .name "a", .operator .assign,
    .operator .ellipsis, .operator .rightParen, .operator .rightParen].map fun kind => ⟨kind, 1, .plain⟩

def varargAssignedChunk : Chunk :=
  ⟨⟨#[.ofName "print", .ofName "a", .atom .vararg, .arith (.assign .set ⟨1⟩ ⟨2⟩),
    .call ⟨0⟩ [⟨3⟩]]⟩, [.call ⟨4⟩ 1]⟩

/-- An assigned `...` of the chunk ends up in a literal without
parameters, where it has no place. -/
theorem desugar_unscoped_assigned : parse varargAssigned = .ok varargAssignedChunk ∧
    varargAssignedChunk.Scoped ∧ (desugar "h" varargAssignedChunk).2 = none ∧
    ¬ (desugar "h" varargAssignedChunk).1.Scoped := by
  have hparse : parse varargAssigned = .ok varargAssignedChunk := rfl
  refine ⟨hparse, (parse_scoped_iff hparse).2 (by decide +kernel), by decide +kernel, fun h => ?_⟩
  have hcall : Chunk.Occurs (desugar "h" varargAssignedChunk).1 true ⟨4⟩ := .body (by decide +kernel)
  have hclosure : Chunk.Occurs (desugar "h" varargAssignedChunk).1 true ⟨5⟩ :=
    .child (i := ⟨3⟩) (.child hcall (by decide +kernel)) (by decide +kernel)
  have hvararg : Chunk.Occurs (desugar "h" varargAssignedChunk).1 false ⟨2⟩ :=
    .literal hclosure (by decide +kernel)
  exact absurd (h false ⟨2⟩ hvararg (by decide +kernel)) (by decide)

end LuaSugar
