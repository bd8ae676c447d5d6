import Mathlib
import LuaSugar.Proofs.Desugar.Cleans
import LuaSugar.Proofs.Desugar.Sequence
/-!
# Desugared chunks are plain

Each of the five passes finishes what it is called for, so that after all
of them a chunk holds nothing that plain Lua does not have. Passes over
statements change no node, and nothing is due of nodes at their stage;
passes over expressions change no statement. The intrinsics are between:
they move the body of a definition, which is still to be visited, into a
literal of the statement ahead.
-/

namespace LuaSugar

variable {k : ℕ} {σ ε : Type}

namespace Pass

/-- A pass over expressions has nothing due of statements. -/
theorem Cleans.ofExpression {f : ExprId → Stmt → Edit σ ε Unit}
    (hkind : ∀ kind : StmtKind, kind.Free k → kind.Free (k + 1))
    (hf : ∀ {w : Stage} {d x} (owner : Stmt) {space} {ρ : ExprId → ℚ},
      w.Good k space.arena → space.arena.Ranked ρ → x ∈ w.within d →
      (∀ y ∈ space.arena.descendants x, y ∈ w.within 0 ∨ space.arena.body? y = none) →
      Edits (Stage.Good k) (f x owner) (fun w' _ => x ∈ w'.within 0) w space) :
    (ofExpression f).Cleans k where
  expression := hf
  statement {w d} c space h hfree hroots hblocks hbefore hafter _ := by
    have hfocus : w.Todo k 0 c.stmt := Stage.todo_iff.2 ⟨hkind _ hfree, hroots, hblocks⟩
    exact Edits.pure h ⟨List.forall_mem_cons.2 ⟨hfocus, hbefore⟩, hafter⟩

/-- A pass over statements has nothing due of nodes. -/
theorem Cleans.ofStatement {f : Cursor → Edit σ ε Cursor}
    (hnode : ∀ e : Expr, e.Free k → e.Free (k + 1))
    (hf : ∀ {w : Stage} {d} (c : Cursor) {space}, w.Good k space.arena →
      c.stmt.kind.Free k → (∀ x ∈ c.stmt.kind.roots, x ∈ w.within 0) →
      (∀ b ∈ c.stmt.kind.blocks, ∀ t ∈ b, w.Todo k 0 t) →
      (∀ slot ∈ c.before, w.Todo k 0 slot.stmt) →
      (∀ slot ∈ c.after, w.Todo k (slot.wait d) slot.stmt) →
      (∀ slot ∈ c.after, slot.stmt.kind.Named) →
      Edits (Stage.Good k) (f c) (fun w' c' =>
        (∀ slot ∈ c'.focus :: c'.before, w'.Todo k 0 slot.stmt) ∧
        ∀ slot ∈ c'.after, w'.Todo k (slot.wait d) slot.stmt) w space) :
    (ofStatement f).Cleans k where
  expression {w d x} owner space ρ h hr hx hseen := by
    obtain ⟨w', hle, hgood, hx⟩ := h.finish hr hx hseen hnode
    exact ⟨w', hle, hgood, fun _ _ => hx⟩
  statement := hf

end Pass

/-- Statements behind and ahead stay what they are. -/
theorem Cursor.todo_mono {w w' : Stage} {d : ℕ} {c : Cursor} (hle : w ≤ w')
    (hbefore : ∀ slot ∈ c.before, w.Todo k 0 slot.stmt)
    (hafter : ∀ slot ∈ c.after, w.Todo k (slot.wait d) slot.stmt) :
    (∀ slot ∈ c.before, w'.Todo k 0 slot.stmt) ∧
      ∀ slot ∈ c.after, w'.Todo k (slot.wait d) slot.stmt :=
  ⟨fun slot hs => (hbefore slot hs).mono hle, fun slot hs => (hafter slot hs).mono hle⟩

/-! ## Assignments -/

theorem AssignmentExpr.hoist_finishes {w : Stage} {space : Workspace Unit} {y : ExprId} (line : ℕ)
    (h : w.Good 0 space.arena) (hy : y.index < space.arena.size)
    (hready : w.Ready 0 (space.arena.get y)) :
    Edits (Stage.Good 0) (hoist line y) (fun w' _ => y ∈ w'.within 0) w space := by
  unfold hoist
  refine Edits.arena ?_
  split
  · rename_i op target value hget
    have hids : target ∈ w.within 0 ∧ value ∈ w.within 0 := by
      have := hready.children
      simpa [hget, Expr.children] using this
    refine Edits.bind (Edits.build (h.function (by omega) (d := 0)
      ⟨[], false, [statement op target value line, .ret [target] line]⟩ fun s hs => ?_))
      fun w₁ closure space₁ h₁ hg₁ hclosure => ?_
    · rcases List.mem_cons.1 hs with rfl | hs
      · cases op with
        | set =>
          exact .plain (by omega) rfl rfl
            (by simp [statement, Stmt.assign, StmtKind.roots, hids.1, hids.2])
        -- a compound assignment is left for a later pass
        | compound op =>
          refine Stage.todo_iff.2 ⟨le_rfl, ?_, by simp [statement, StmtKind.blocks]⟩
          simp [statement, StmtKind.roots, hids.1, hids.2]
      · obtain rfl := List.mem_singleton.1 hs
        exact .plain (by omega) rfl rfl (by simp [Stmt.ret, StmtKind.roots, hids.1])
    · obtain ⟨w₂, h₂, hmem, hg₂⟩ := hg₁.set (x := y) (e := .call closure [])
        (hg₁.arena ▸ hy.trans_le (h.arena ▸ h₁.size))
        (.plain (by omega) rfl (by simpa [Expr.call, Expr.children]))
      exact ⟨w₂, h₂, hg₂, fun _ _ => hmem⟩
  · rename_i hother
    have hfree : (space.arena.get y).Free 1 := by
      unfold Expr.Free Expr.lasts
      split
      · rename_i op target value hget
        exact absurd hget (hother op target value)
      · omega
      · omega
    obtain ⟨w', hle, hmem, hg⟩ := h.mark hy (hready.node hfree)
    exact ⟨w', hle, hg, fun _ _ => hmem⟩

theorem AssignmentExpr.cleans : AssignmentExpr.pass.Cleans 0 := by
  refine .ofExpression (fun kind _ => ?_) fun {w d x} owner space ρ h hr hx hseen => ?_
  · unfold StmtKind.Free StmtKind.lasts
    split <;> omega
  · refine Edits.arena (Edits.mono (Edits.forM_behind (P := fun w y => y ∈ w.within 0)
      Stage.mem_mono [] h (by simp) fun w' l₁ y l₂ space' hl hle h' hbehind => ?_)
      fun w' _ _ hall => ?_)
    · obtain ⟨hinside, hready⟩ := h.ready hr hx hseen hl hle h' hbehind
      exact hoist_finishes owner.line h' hinside hready
    · exact hall x (space.arena.self_mem_descendants x)

/-! ## Compound assignments and imports -/

/-- Another statement than its pass removes outlasts it. -/
theorem StmtKind.Free.succ {kind : StmtKind} (h : kind.Free k) (hk : kind.lasts ≠ k) :
    kind.Free (k + 1) := by
  unfold StmtKind.Free at *
  omega

/-- Where the pass has nothing to do with a statement, that is finished. -/
theorem Stage.Good.keep {w : Stage} {d : ℕ} {c : Cursor} {space : Workspace σ}
    (h : w.Good k space.arena) (hfree : c.stmt.kind.Free (k + 1))
    (hroots : ∀ x ∈ c.stmt.kind.roots, x ∈ w.within 0)
    (hblocks : ∀ b ∈ c.stmt.kind.blocks, ∀ t ∈ b, w.Todo k 0 t)
    (hbefore : ∀ slot ∈ c.before, w.Todo k 0 slot.stmt)
    (hafter : ∀ slot ∈ c.after, w.Todo k (slot.wait d) slot.stmt) :
    Edits (Stage.Good k) (pure c : Edit σ ε Cursor) (fun w' c' =>
      (∀ slot ∈ c'.focus :: c'.before, w'.Todo k 0 slot.stmt) ∧
      ∀ slot ∈ c'.after, w'.Todo k (slot.wait d) slot.stmt) w space := by
  have hfocus : w.Todo k 0 c.stmt := todo_iff.2 ⟨hfree, hroots, hblocks⟩
  exact Edits.pure h ⟨List.forall_mem_cons.2 ⟨hfocus, hbefore⟩, hafter⟩

theorem CompoundAssignment.cleans : CompoundAssignment.pass.Cleans 1 := by
  refine .ofStatement (fun e h => ?_)
    fun {w d} c space h hfree hroots hblocks hbefore hafter _ => ?_
  · unfold Expr.Free Expr.lasts at *
    split at h <;> omega
  · split
    · rename_i target op value hkind
      rw [hkind] at hroots
      obtain ⟨ht, hv⟩ : target ∈ w.within 0 ∧ value ∈ w.within 0 := by
        simpa [StmtKind.roots] using hroots
      refine Edits.bind (Edits.build ((Stage.makes (by omega)).binary h op ht hv))
        fun w₁ result space₁ h₁ hg₁ hr => ?_
      obtain ⟨hbefore, hafter⟩ := Cursor.todo_mono h₁ hbefore hafter
      refine Edits.pure hg₁ ⟨List.forall_mem_cons.2 ⟨?_, hbefore⟩, hafter⟩
      exact .plain (by omega) rfl rfl
        (by simp [Cursor.replace, Stmt.assign, StmtKind.roots, h₁.within 0 ht, hr])
    · rename_i hother
      refine h.keep (hfree.succ fun hlasts => ?_) hroots hblocks hbefore hafter
      cases hkind : c.stmt.kind with
      | compoundAssign target op value => exact hother target op value hkind
      | _ => simp [hkind, StmtKind.lasts] at hlasts

theorem Import.cleans : Import.pass.Cleans 2 := by
  refine .ofStatement (fun e h => ?_)
    fun {w d} c space h hfree hroots hblocks hbefore hafter _ => ?_
  -- no node is due to this pass
  · unfold Expr.Free Expr.lasts at *
    split at h <;> omega
  · dsimp only [pass, Pass.ofStatement]
    split
    · rename_i binding source hkind
      rw [hkind] at hroots
      -- the call of `require` is finished, as the source is
      have hsource : source ∈ w.within 0 := by simpa [StmtKind.roots] using hroots
      have hcall : Builds (Stage.Good 2) (do Build.call (← Build.name "require") [source])
          (fun w' i => i ∈ w'.within 0) w space.arena := by
        refine Builds.bind ((Stage.makes (by omega)).name h "require") fun w₁ target a₁ h₁ hg₁ ht => ?_
        exact hg₁.call (by omega) ht (by simpa using h₁.within 0 hsource)
      refine Edits.bind (Edits.build hcall) fun w₁ module space₁ h₁ hg₁ hmodule => ?_
      cases binding with
      | default name =>
        obtain ⟨hbefore, hafter⟩ := Cursor.todo_mono h₁ hbefore hafter
        refine Edits.pure hg₁ ⟨List.forall_mem_cons.2 ⟨?_, hbefore⟩, hafter⟩
        exact .plain (by omega) rfl rfl
          (by simpa [Cursor.replace, Stmt.localDecl, StmtKind.roots] using hmodule)
      -- the holder is put behind the cursor, so both have to be finished
      | named names =>
        refine Edits.bind (Edits.state hg₁) fun w₂ count space₂ h₂ hg₂ _ => ?_
        refine Edits.bind (Edits.setState hg₂) fun w₃ _ space₃ h₃ hg₃ _ => ?_
        refine Edits.bind (Edits.build (Builds.mapM (Q := fun w' i => i ∈ w'.within 0)
          Stage.mem_mono hg₃ fun w' name a' _ _ hg' =>
            (Stage.makes (by omega)).readMember hg' _ name)) fun w₄ values space₄ h₄ hg₄ hvalues => ?_
        have h₁₄ : w₁ ≤ w₄ := (h₂.trans h₃).trans h₄
        obtain ⟨hbefore, hafter⟩ := Cursor.todo_mono (h₁.trans h₁₄) hbefore hafter
        have hholder : w₄.Todo 2 0 (.localDecl [holder count] [module] c.line) :=
          .plain (by omega) rfl rfl
            (by simpa [Stmt.localDecl, StmtKind.roots] using h₁₄.within 0 hmodule)
        refine Edits.pure hg₄ ⟨List.forall_mem_cons.2 ⟨?_, List.forall_mem_cons.2 ⟨hholder, hbefore⟩⟩,
          hafter⟩
        exact .plain (by omega) rfl rfl hvalues.2
    · rename_i hother
      refine h.keep (hfree.succ fun hlasts => ?_) hroots hblocks hbefore hafter
      cases hkind : c.stmt.kind with
      | importFrom binding source => exact hother binding source hkind
      | _ => simp [hkind, StmtKind.lasts] at hlasts

/-! ## Intrinsics -/

namespace Intrinsic

variable {w : Stage} {a : Arena} {n : ℕ}

/-- The call that decorates a function is as far from the end as the body
of the function. -/
theorem decorate_finishes (h : w.Good 3 a) {intrinsic : ExprId} {args : List ExprId}
    (signature : String) {func : FuncBody} (hi : intrinsic ∈ w.within 0)
    (hargs : ∀ x ∈ args, x ∈ w.within 0) (hbody : ∀ s ∈ func.body, w.Todo 3 (n - 1) s) :
    Builds (Stage.Good 3) (decorate intrinsic args signature func) (fun w' i => i ∈ w'.within n)
      w a := by
  have hk : 3 < 5 := by omega
  unfold decorate
  refine Builds.bind ((Stage.makes hk).text h signature) fun w₁ text a₁ h₁ hg₁ htext => ?_
  refine Builds.bind (hg₁.function hk (d := n) _ fun s hs => (hbody s hs).mono h₁)
    fun w₂ literal a₂ h₂ hg₂ hliteral => ?_
  have hfinished {x : ExprId} (hx : x ∈ w₂.within 0) : x ∈ w₂.within n := hg₂.finished n hx
  refine hg₂.call hk (hfinished ((h₁.trans h₂).within 0 hi)) fun x hx => ?_
  rcases List.mem_append.1 hx with hx | hx
  · exact hfinished ((h₁.trans h₂).within 0 (hargs x hx))
  · rcases List.mem_cons.1 hx with rfl | hx
    · exact hfinished (h₂.within 0 htext)
    · rwa [List.mem_singleton.1 hx]

theorem decorateNext_finishes {space : Workspace Unit} (h : w.Good 3 space.arena) (line : ℕ)
    {intrinsic : ExprId} {args : List ExprId} (next : Cursor) (hi : intrinsic ∈ w.within 0)
    (hargs : ∀ x ∈ args, x ∈ w.within 0) (hnext : w.Todo 3 n next.stmt)
    (hnamed : next.stmt.kind.Named) :
    Edits (Stage.Good 3) (decorateNext line intrinsic args next)
      (fun w' => Decorated (fun s => w'.Todo 3 n s) (fun s => w'.Todo 3 0 s) next) w space := by
  have hk : 3 < 5 := by omega
  have hignore {w' : Stage} : w'.Todo 3 0 (.ignore line) :=
    .plain hk rfl rfl (by simp [Stmt.ignore, StmtKind.roots])
  have hassign {w' : Stage} {target call : ExprId} (ht : target ∈ w'.within n)
      (hc : call ∈ w'.within n) : w'.Todo 3 n (.assign [target] [call] next.line) :=
    .plain hk rfl rfl (by simp [Stmt.assign, StmtKind.roots, ht, hc])
  unfold decorateNext
  split
  · rename_i names values hkind
    have hcall : Builds (Stage.Good 3) (do
        let descriptors ← names.mapM (descriptor next.line)
        Build.call intrinsic (args ++ descriptors))
        (fun w' i => i ∈ w'.within 0) w space.arena := by
      refine Builds.bind (Builds.mapM (Q := fun w' i => i ∈ w'.within 0)
        Stage.mem_mono h fun w' name a' _ _ hg' =>
          (Stage.makes hk).descriptor hg' next.line name) fun w₁ descriptors a₁ h₁ hg₁ hd => ?_
      refine hg₁.call hk (h₁.within 0 hi) fun x hx => ?_
      rcases List.mem_append.1 hx with hx | hx
      · exact h₁.within 0 (hargs x hx)
      · exact hd.2 x hx
    refine Edits.bind (Edits.build hcall) fun w₁ call space₁ h₁ hg₁ hc => ?_
    refine Edits.pure hg₁ ⟨rfl, rfl, hnext.mono h₁, .inr ⟨_, rfl, ?_⟩, hignore⟩
    exact .plain hk rfl rfl (by simpa [Stmt.call, StmtKind.roots] using hc)
  · rename_i path func hkind
    have hbody : ∀ s ∈ func.body, w.Todo 3 (n - 1) s :=
      (Stage.todo_iff.1 hnext).2.2 func.body (by simp [hkind, StmtKind.blocks])
    refine Edits.bind (Edits.build ((Stage.makes hk).path h path.segments)) fun w₁ i? space₁ h₁ hg₁ hi? => ?_
    cases i? with
    -- only a path without names gives no expression
    | none => exact absurd (hi?.1 rfl) (hnamed path func hkind)
    | some target =>
      refine Edits.bind (Edits.build (decorate_finishes (n := n) hg₁ _ (h₁.within 0 hi)
        (fun x hx => h₁.within 0 (hargs x hx))
        (by rw [definedFunction_body]; exact fun s hs => (hbody s hs).mono h₁)))
        fun w₂ call space₂ h₂ hg₂ hc => ?_
      have ht := hg₂.finished n (h₂.within 0 (hi?.2 target rfl))
      exact Edits.pure hg₂ ⟨rfl, rfl, hassign ht hc, .inl rfl, hignore⟩
  · rename_i name func hkind
    have hbody : ∀ s ∈ func.body, w.Todo 3 (n - 1) s :=
      (Stage.todo_iff.1 hnext).2.2 func.body (by simp [hkind, StmtKind.blocks])
    refine Edits.bind (Edits.build ((Stage.makes hk).name h name)) fun w₁ target space₁ h₁ hg₁ ht => ?_
    refine Edits.bind (Edits.build (decorate_finishes (n := n) hg₁ _ (h₁.within 0 hi)
      (fun x hx => h₁.within 0 (hargs x hx)) fun s hs => (hbody s hs).mono h₁))
      fun w₂ call space₂ h₂ hg₂ hc => ?_
    refine Edits.pure hg₂ ⟨rfl, rfl, hassign (hg₂.finished n (h₂.within 0 ht)) hc, .inl rfl, ?_⟩
    exact .plain hk rfl rfl (by simp [Stmt.localDecl, StmtKind.roots])
  · exact Edits.throw h

theorem cleans : Intrinsic.pass.Cleans 3 := by
  refine .ofStatement (fun e h => ?_)
    fun {w d} c space h hfree hroots hblocks hbefore hafter hnamed => ?_
  -- no node is due to this pass
  · unfold Expr.Free Expr.lasts at *
    split at h <;> omega
  · split
    · rename_i intrinsic args hkind
      rw [hkind] at hroots
      obtain ⟨hi, hargs⟩ : intrinsic ∈ w.within 0 ∧ ∀ x ∈ args, x ∈ w.within 0 := by
        simpa [StmtKind.roots] using hroots
      rcases c with ⟨before, focus, after⟩
      cases after with
      -- an intrinsic with nothing behind it is refused
      | nil => exact Edits.throw h
      | cons slot after =>
        rw [List.forall_mem_cons] at hafter hnamed
        -- the statement ahead gives way, and the cursor comes back to the intrinsic
        refine Edits.bind (decorateNext_finishes h _ ⟨focus :: before, slot, after⟩ hi hargs
          hafter.1 hnamed.1) fun w₁ result space₁ h₁ hg₁ hd => ?_
        have hrest : ∀ s ∈ after, w₁.Todo 3 (s.wait d) s.stmt := fun s hs =>
          (hafter.2 s hs).mono h₁
        have hafter₁ : ∀ s ∈ result.1.after, w₁.Todo 3 (s.wait d) s.stmt := by
          rcases hd.after with heq | ⟨s, heq, hs⟩
          · rwa [heq]
          · rw [heq]
            exact List.forall_mem_cons.2 ⟨hs, hrest⟩
        have hfocus : w₁.Todo 3 (result.1.focus.wait d) result.1.focus.stmt := by
          have := hd.focus
          unfold Slot.wait at *
          rwa [hd.fresh]
        have hback : (result.1.backTo (Cursor.index ⟨before, focus, slot :: after⟩)).replace
            result.2 = _ := hd.back
        refine Edits.pure hg₁ ?_
        rw [hback]
        exact ⟨List.forall_mem_cons.2 ⟨hd.left, fun s hs => (hbefore s hs).mono h₁⟩,
          List.forall_mem_cons.2 ⟨hfocus, hafter₁⟩⟩
    · rename_i hother
      refine h.keep (hfree.succ fun hlasts => ?_) hroots hblocks hbefore hafter
      cases hkind : c.stmt.kind with
      | intrinsic expr args => exact hother expr args hkind
      | _ => simp [hkind, StmtKind.lasts] at hlasts

end Intrinsic

/-! ## Elements -/

namespace Element

variable {w : Stage} {a : Arena} {x : ExprId}

/-- A finished node is no element. -/
theorem lower_done (constructor : String) (depth : ℕ) (h : w.Good 4 a) (hx : x ∈ w.within 0) :
    Builds (Stage.Good 4) (lower constructor depth x) (fun _ _ => True) w a := by
  cases depth with
  | zero => exact Builds.pure h trivial
  | succ depth =>
    unfold lower
    refine Builds.get ?_
    split
    · rename_i e hget
      have hfree := (h.nodes 0 x hx).free
      rw [hget] at hfree
      exact absurd (show 5 ≤ 4 from hfree) (by omega)
    · exact Builds.pure h trivial

/-- **Lowering an element** whose inside is finished. -/
theorem lower_finishes (constructor : String) (depth : ℕ) (h : w.Good 4 a) (hx : x.index < a.size)
    (hready : w.Ready 4 (a.get x)) :
    Builds (Stage.Good 4) (lower constructor (depth + 1) x) (fun w' _ => x ∈ w'.within 0) w a := by
  have hk : 4 < 5 := by omega
  have hwithin {w' : Stage} {a' : Arena} {root : ExprId} (h' : w'.Good 4 a')
      (hroot : root ∈ w'.within 0) :
      Builds (Stage.Good 4) (within constructor depth root) (fun _ _ => True) w' a' :=
    Builds.get (Builds.forM h' fun w'' y a'' hy hle h'' => lower_done constructor depth h''
      (hle.within 0 (h'.below_of_mem_descendants hroot (List.mem_of_mem_filter hy))))
  rw [lower_succ]
  refine Builds.get ?_
  split
  · rename_i e hget
    have hchildren := hready.children
    rw [hget] at hchildren
    -- emptied, the node is finished while its parts are built
    obtain ⟨w₁, h₁, -, hg₁⟩ := h.set hx (e := .atom .nil) (.plain hk rfl (by simp [Expr.children]))
    refine Builds.bind (Builds.modify h₁ hg₁) fun w₂ _ a₂ h₂ hg₂ _ => ?_
    refine Builds.bind ((Stage.makes hk).element hg₂ (fun y hy => h₂.within 0 (hchildren y hy))
      fun _ => hwithin) fun w₃ node a₃ h₃ hg₃ hnode => ?_
    obtain ⟨hplain, hids⟩ := hnode
    obtain ⟨w₄, h₄, hmem, hg₄⟩ := hg₃.set (x := x)
      (hg₃.arena ▸ hx.trans_le (h.arena ▸ (h₂.trans h₃).size)) (.plain hk hplain hids)
    exact ⟨w₄, h₄, hg₄, hmem⟩
  -- a node that is no element is finished as it stands
  · rename_i hother
    have hfree : (a.get x).Free 5 := by
      have := hready.free
      unfold Expr.Free Expr.lasts at *
      split at this
      · omega
      · rename_i e hget
        exact absurd hget (hother e)
      · exact le_rfl
    obtain ⟨w', hle, hmem, hg⟩ := h.mark hx (hready.node hfree)
    exact ⟨w', hle, hg, hmem⟩

theorem cleans (constructor : String) : (pass constructor).Cleans 4 := by
  refine .ofExpression (fun kind h => ?_) fun {w d x} owner space ρ h hr hx hseen => ?_
  · unfold StmtKind.Free StmtKind.lasts at *
    split at h <;> omega
  · refine Edits.arena (Edits.build ?_)
    rw [Arena.leaves, forM_filter]
    refine (Builds.forM_behind (P := fun w y => y ∈ w.within 0) Stage.mem_mono [] h (by simp)
      fun w' l₁ y l₂ a' hl hle h' hbehind => ?_).mono fun w' _ _ hall =>
        hall x (space.arena.self_mem_descendants x)
    obtain ⟨hinside, hready⟩ := h.ready hr hx hseen hl hle h' hbehind
    split
    · exact lower_finishes constructor space.arena.size h' hinside hready
    · rename_i hatom
      have hfree : (a'.get y).Free 5 := by
        rcases hle.shell y (h.arena ▸ h.inside d y (h.below_of_mem_descendants hx (hl ▸ by simp)))
          with hdone | hhollow
        · exact (h'.nodes 0 y hdone).free
        · rw [← h.arena, ← h'.arena] at hhollow
          rw [← Expr.isAtom_hollow, ← hhollow, Expr.isAtom_hollow] at hatom
          have := hready.free
          unfold Expr.Free Expr.lasts at *
          split at this
          · omega
          · rename_i e hget
            rw [hget] at hatom
            exact absurd rfl hatom
          · exact le_rfl
      obtain ⟨w'', hle'', hmem, hg⟩ := h'.mark hinside (hready.node hfree)
      exact ⟨w'', hle'', hg, hmem⟩

end Element

/-! ## All passes -/

/-- Statements that plain Lua does not have. -/
def StmtKind.isSugar : StmtKind → Bool
  | .compoundAssign _ _ _ | .importFrom _ _ | .intrinsic _ _ => true
  | _ => false

/-- Expressions that plain Lua does not have. -/
def Expr.isSugar : Expr → Bool
  | .arith (.assign _ _ _) | .atom (.element _) => true
  | _ => false

/-- **Plain chunks**: no sugar in the body nor in what it leads to. -/
structure Chunk.Plain (c : Chunk) : Prop where
  body : Block.Everywhere (fun kind => kind.isSugar = false) c.body
  nodes : ∀ i, c.Reaches i → (c.arena.get i).isSugar = false
  bodies : ∀ i, c.Reaches i → ∀ body, c.arena.body? i = some body →
    Block.Everywhere (fun kind => kind.isSugar = false) body

/-- No sugar in a list of statements, at every depth. -/
def Block.lacksSugar (body : Block) : Bool := (Block.deep body).all fun s => !s.kind.isSugar

/-- No sugar in a node, nor in the body of a function literal. -/
def Expr.lacksSugar : Expr → Bool
  | .atom (.func func) => Block.lacksSugar func.body
  | e => !e.isSugar

/-- **To see that a chunk is plain** it is enough to look at its nodes. -/
theorem Chunk.plain_of_nodes {c : Chunk} (hbody : Block.lacksSugar c.body)
    (hnodes : ∀ e ∈ c.arena.nodes.toList, e.lacksSugar) : c.Plain := by
  have hlist {body : Block} (h : Block.lacksSugar body) :
      Block.Everywhere (fun kind => kind.isSugar = false) body := fun s hs => by
    simpa using List.all_eq_true.1 h s hs
  have hget := (Arena.forall_get (a := c.arena) (P := fun e => e.lacksSugar) rfl).2 hnodes
  refine ⟨hlist hbody, fun i _ => ?_, fun i _ body hi => ?_⟩
  · have hi := hget i
    unfold Expr.lacksSugar at hi
    split at hi
    · rename_i hfunc
      rw [hfunc]
      rfl
    · simpa using hi
  · obtain ⟨func, hfunc, rfl⟩ := Arena.body?_eq_some.1 hi
    have hi := hget i
    rw [hfunc] at hi
    exact hlist hi

theorem StmtKind.free_five {kind : StmtKind} : kind.Free 5 ↔ kind.isSugar = false := by
  cases kind <;> simp [StmtKind.Free, StmtKind.lasts, StmtKind.isSugar]

theorem Expr.free_five {e : Expr} : e.Free 5 ↔ e.isSugar = false := by
  cases e with
  | atom x => cases x <;> simp [Expr.Free, Expr.lasts, Expr.isSugar]
  | arith x => cases x <;> simp [Expr.Free, Expr.lasts, Expr.isSugar]

theorem Chunk.free_five {c : Chunk} : c.Free 5 ↔ c.Plain := by
  constructor
  · exact fun h => ⟨h.body.mono fun _ => StmtKind.free_five.1, fun i hi =>
      Expr.free_five.1 (h.nodes i hi), fun i hi body hbody =>
        (h.bodies i hi body hbody).mono fun _ => StmtKind.free_five.1⟩
  · exact fun h => ⟨h.body.mono fun _ => StmtKind.free_five.2, fun i hi =>
      Expr.free_five.2 (h.nodes i hi), fun i hi body hbody =>
        (h.bodies i hi body hbody).mono fun _ => StmtKind.free_five.2⟩

theorem Chunk.free_zero (c : Chunk) : c.Free 0 :=
  ⟨fun _ _ => Nat.zero_le _, fun _ _ => Nat.zero_le _, fun _ _ _ _ _ _ => Nat.zero_le _⟩

/-- **Desugaring a sound chunk** leaves plain Lua, unless it fails. -/
theorem Chunk.Sound.desugar_plain {c : Chunk} (h : c.Sound .anything False)
    (constructor : String) (hok : (desugar constructor c).2 = none) :
    (desugar constructor c).1.Plain := by
  have hV := Vocabulary.anything_stable
  have never {f : Option Empty} : f = none := by
    cases f with
    | none => rfl
    | some e => exact e.elim
  -- four passes that cannot fail or did not, each free of one construct more
  have h₁ := h.apply .assignments
  have f₁ : (hoistAssignments c).Free 1 :=
    AssignmentExpr.cleans.run (by omega) hV (AssignmentExpr.keeps hV) h c.free_zero () never
  have h₂ := h₁.apply .compound
  have f₂ : (expandCompound _).Free 2 :=
    CompoundAssignment.cleans.run (by omega) hV (CompoundAssignment.keeps hV) h₁ f₁ () never
  have h₃ := h₂.apply .imports
  have f₃ : (expandImports _).Free 3 :=
    Import.cleans.run (by omega) hV (Import.keeps hV) h₂ f₂ 0 never
  have h₄ := h₃.apply .intrinsics
  simp only [ChunkPass.apply] at h₁ h₂ h₃ h₄
  unfold desugar at hok ⊢
  rcases hpass : expandIntrinsics (expandImports (expandCompound (hoistAssignments c))) with
    ⟨c', _ | e⟩
  · have f₄ : c'.Free 4 := by
      have hrun := Intrinsic.cleans.run (by omega) hV (Intrinsic.keeps hV) h₃ f₃ ()
        (congrArg Prod.snd hpass)
      rwa [show (Intrinsic.pass.run () _).chunk = c' from congrArg Prod.fst hpass] at hrun
    rw [hpass] at h₄
    exact Chunk.free_five.1 ((Element.cleans constructor).run (by omega) hV
      (Element.keeps hV trivial) h₄ f₄ () never)
  · rw [hpass] at hok
    cases hok

end LuaSugar
