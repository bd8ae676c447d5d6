import Mathlib
import LuaSugar.Project
import LuaSugar.Proofs.Desugar.Making
import LuaSugar.Proofs.Pass.Sound
/-!
# Every pass keeps chunks sound

What the callbacks of the six passes show: they build from ids below a
bound what is below it, and overwrite a node by what refers to nodes below
it. Most of it is one rule, that a node made of ids below a bound is an id
below that bound.
-/

namespace LuaSugar

variable {V : Vocabulary} {R : Prop} {w w' : Ranking V} {a : Arena} {B : ℚ}

/-! ## Lists of statements -/

/-- Only the last statement may be a return. -/
theorem Block.returnsLast_append {l l' : List Stmt} (h : l' ≠ []) :
    Block.ReturnsLast (l ++ l') ↔ (∀ s ∈ l, s.kind.isReturn = false) ∧ Block.ReturnsLast l' := by
  induction l with
  | nil => simp
  | cons s l ih =>
    obtain ⟨t, rest, hrest⟩ := List.exists_cons_of_ne_nil (l := l ++ l') (by simp [h])
    rw [List.cons_append, List.forall_mem_cons, and_assoc, ← ih, hrest]
    simp [Block.ReturnsLast, List.isChain_cons_cons]

/-- What is no return may stand in front. -/
theorem Block.ReturnsLast.cons {s : Stmt} {l : List Stmt} (h : Block.ReturnsLast l)
    (hs : s.kind.isReturn = false) : Block.ReturnsLast (s :: l) := by
  cases l with
  | nil => exact List.isChain_singleton _
  | cons t l => exact List.isChain_cons_cons.2 ⟨hs, h⟩

/-- Without its first statement a list returns last still. -/
theorem Block.ReturnsLast.tail {s : Stmt} {l : List Stmt} (h : Block.ReturnsLast (s :: l)) :
    Block.ReturnsLast l :=
  List.IsChain.tail h

namespace Cursor

variable {c : Cursor} {s : Stmt}

/-- The statements of a list around its cursor, which are reversed behind it. -/
theorem slots_map_stmt (c : Cursor) :
    c.slots.map Slot.stmt = (c.before.map Slot.stmt).reverse ++ c.stmt :: c.after.map Slot.stmt := by
  simp [slots, Cursor.stmt]

/-- What holds of the statements of a list, and of the one that takes the
place of one of them. -/
theorem forall_replace {P : Stmt → Prop} (h : ∀ slot ∈ c.slots, P slot.stmt) (hs : P s) :
    ∀ slot ∈ (c.replace s).slots, P slot.stmt := by
  rw [forall_slots, List.forall_mem_cons] at h ⊢
  exact ⟨⟨hs, h.1.2⟩, h.2⟩

/-- What holds of the statements of a list, and of one put before the cursor. -/
theorem forall_insertBefore {P : Stmt → Prop} (h : ∀ slot ∈ c.slots, P slot.stmt) (hs : P s) :
    ∀ slot ∈ (c.insertBefore s).slots, P slot.stmt := by
  rw [forall_slots, List.forall_mem_cons] at h ⊢
  exact ⟨⟨h.1.1, List.forall_mem_cons.2 ⟨hs, h.1.2⟩⟩, h.2⟩

/-- A list returns last still when no return takes the place of a statement. -/
theorem returnsLast_replace (hs : s.kind.isReturn = false)
    (h : Block.ReturnsLast (c.slots.map Slot.stmt)) :
    Block.ReturnsLast ((c.replace s).slots.map Slot.stmt) := by
  rw [slots_map_stmt] at h ⊢
  rw [Block.returnsLast_append (by simp)] at h ⊢
  exact ⟨h.1, h.2.tail.cons hs⟩

/-- And when no return is put before one. -/
theorem returnsLast_insertBefore (hs : s.kind.isReturn = false)
    (h : Block.ReturnsLast (c.slots.map Slot.stmt)) :
    Block.ReturnsLast ((c.insertBefore s).slots.map Slot.stmt) := by
  rw [slots_map_stmt] at h ⊢
  rw [Block.returnsLast_append (by simp)] at h ⊢
  refine ⟨?_, h.2⟩
  simp only [Cursor.insertBefore, List.map_cons, List.reverse_cons, List.mem_append]
  rintro t (ht | ht)
  · exact h.1 t ht
  · rwa [List.mem_singleton.1 ht]

/-- Moving back by one from the statement behind. -/
theorem backTo_index (before after : List Slot) (focus next : Slot) :
    backTo before.length ⟨focus :: before, next, after⟩ = ⟨before, focus, next :: after⟩ := by
  rw [backTo, if_neg (lt_irrefl _)]
  cases before with
  | nil => rw [backTo]
  | cons slot before => rw [backTo, if_pos (by simp)]

end Cursor

/-! ## Building below a bound -/

namespace Ranking.Sound

/-- A node without ids. -/
theorem leaf (hV : V.Stable) (h : w.Sound R a) (B : ℚ) {e : Expr} (he : e.refs = []) (hn : V.Node a e)
    (ho : e.Orderly) : Builds (Ranking.Sound R) (Build.alloc e)
      (fun w' i => w'.Below B i ∧ w'.arena.get i = e) w a := by
  refine (h.alloc hV (B := B) (e := e) (by simp [he]) hn ?_ fun _ => ho).mono
    fun w' i _ hi => ⟨hi.1, hi.2.1⟩
  rintro op t v rfl
  cases he

/-- A name is something to assign to. -/
theorem name (hV : V.Stable) (h : w.Sound R a) (B : ℚ) {text : String} (ht : V.name text) :
    Builds (Ranking.Sound R) (Build.name text)
      (fun w' i => w'.Below B i ∧ V.target (w'.arena.get i)) w a :=
  (h.leaf hV B (e := .ofName text) rfl ht trivial).mono fun w' i _ hi =>
    ⟨hi.1, by rw [hi.2]; exact hV.target _ rfl⟩

/-- A string literal is below any bound. -/
theorem text (hV : V.Stable) (h : w.Sound R a) (B : ℚ) (text : String) :
    Builds (Ranking.Sound R) (Build.text text) (fun w' i => w'.Below B i) w a :=
  (h.leaf hV B (e := .ofText text) rfl trivial trivial).mono fun _ _ _ hi => hi.1

/-- An operator is below the bound of its operands. -/
theorem binary (hV : V.Stable) (h : w.Sound R a) (op : BinaryOp) {l r : ExprId}
    (hl : w.Below B l) (hr : w.Below B r) :
    Builds (Ranking.Sound R) (Build.binary op l r) (fun w' i => w'.Below B i) w a :=
  (h.alloc hV (e := .arith (.binary op l r)) (by simp [Expr.refs, Expr.children, hl, hr]) trivial
    (by simp) fun _ => trivial).mono fun _ _ _ hi => hi.1

/-- A member is below the bound of its object, and may be assigned to. -/
theorem member (hV : V.Stable) (h : w.Sound R a) {object : ExprId} {text : String}
    (hobject : w.Below B object) (ht : V.name text) :
    Builds (Ranking.Sound R) (Build.member object text)
      (fun w' i => w'.Below B i ∧ V.target (w'.arena.get i)) w a :=
  (h.alloc hV (e := .arith (.member object text)) (by simp [Expr.refs, Expr.children, hobject]) ht
    (by simp) fun _ => trivial).mono fun w' i _ hi =>
      ⟨hi.1, by rw [hi.2.1]; exact hV.target _ rfl⟩

/-- A call is below the bound of its target and arguments. -/
theorem call (hV : V.Stable) (h : w.Sound R a) {target : ExprId} {args : List ExprId}
    (htarget : w.Below B target) (hargs : ∀ x ∈ args, w.Below B x) :
    Builds (Ranking.Sound R) (Build.call target args)
      (fun w' i => w'.Below B i ∧ (w'.arena.get i).isCall) w a :=
  (h.alloc hV (e := .call target args)
    (by simpa [Expr.call, Expr.refs, Expr.children, htarget] using hargs) trivial
    (by simp [Expr.call]) fun _ => trivial).mono fun w' i _ hi => ⟨hi.1, by rw [hi.2.1]; rfl⟩

/-- A table is below the bound of its entries. -/
theorem table (hV : V.Stable) (h : w.Sound R a) {t : Table} (ht : ∀ x ∈ t.ids, w.Below B x) :
    Builds (Ranking.Sound R) (Build.table t) (fun w' i => w'.Below B i) w a :=
  (h.alloc hV (e := .atom (.table t)) ht trivial (by simp) fun _ => trivial).mono
    fun _ _ _ hi => hi.1

/-- A function literal from statements with the bound. -/
theorem function (hV : V.Stable) (h : w.Sound R a) (func : FuncBody) (hparams : V.Params func)
    (hbody : ∀ s ∈ func.body, w.Fits R B s) (hlast : R → Block.ReturnsLast func.body) :
    Builds (Ranking.Sound R) (Build.alloc (.atom (.func func)))
      (fun w' i => w'.Below B i ∧ a.Extends w'.arena) w a := by
  refine (h.alloc hV (e := .atom (.func func)) (fun x hx => ?_) ⟨hparams, ?_⟩ (by simp)
    fun hR => ⟨hlast hR, ?_⟩).mono fun _ _ _ hi => ⟨hi.1, hi.2.2⟩
  · obtain ⟨s, hs, hx⟩ := Block.mem_ids_iff.1 (show x ∈ Block.ids func.body from hx)
    exact (hbody s hs).below x hx
  · rw [h.arena]
    exact Vocabulary.block_iff.2 fun s hs => (hbody s hs).sound
  · exact Block.everywhere_iff.2 fun s hs => (hbody s hs).orderly hR

/-- So a table may be made of what is below a bound. -/
theorem makesTables (hV : V.Stable) (B : ℚ) :
    MakesTables (Ranking.Sound R) fun (w : Ranking V) i => w.Below B i :=
  ⟨fun h hx => hx.mono h, fun h text => h.text hV B text, fun h ht => h.table hV ht⟩

/-- A dotted path of names is below any bound, and may be assigned to. -/
theorem path (hV : V.Stable) (h : w.Sound R a) {segments : List String}
    (hsegments : ∀ n ∈ segments, V.name n) : Builds (Ranking.Sound R) (Build.path segments)
      (fun w' i? => (i? = none ↔ segments = []) ∧
        ∀ i, i? = some i → w'.Below B i ∧ V.target (w'.arena.get i)) w a := by
  cases segments with
  | nil => exact Builds.pure h ⟨by simp, by simp⟩
  | cons first rest =>
    rw [List.forall_mem_cons] at hsegments
    refine Builds.bind (h.name hV B hsegments.1) fun w₁ root a₁ h₁ hs₁ hroot => ?_
    refine Builds.bind (Builds.foldlM (I := fun w' i => w'.Below B i ∧ V.target (w'.arena.get i))
      hs₁ hroot fun w' i text a' ht _ hs' hi => hs'.member hV hi.1 (hsegments.2 text ht))
      fun w₂ i a₂ h₂ hs₂ hi => Builds.pure hs₂ ⟨by simp, ?_⟩
    intro j hj
    obtain rfl := Option.some.inj hj
    exact hi

end Ranking.Sound

/-! ## Single statements -/

/-- A declaration of names. -/
theorem localDecl_fits {names : List String} {values : List ExprId} {line : ℕ} (hne : names ≠ [])
    (hnames : ∀ n ∈ names, V.name n) (hvalues : ∀ x ∈ values, w.Below B x) :
    w.Fits R B (.localDecl names values line) :=
  .simple hvalues ⟨hne, hnames⟩ rfl

/-- An assignment to what may be assigned to. -/
theorem assign_fits {target value : ExprId} {line : ℕ}
    (ht : w.Below B target ∧ V.target (w.arena.get target)) (hv : w.Below B value) :
    w.Fits R B (.assign [target] [value] line) :=
  .simple (by simp [Stmt.assign, StmtKind.roots, ht.1, hv]) ⟨by simp, by simp, by simpa using ht.2⟩ rfl

/-- What may be assigned to stays so in later worlds. -/
theorem Ranking.target_mono {x : ExprId} (h : w ≤ w')
    (hx : w.Below B x ∧ V.target (w.arena.get x)) : w'.Below B x ∧ V.target (w'.arena.get x) :=
  ⟨hx.1.mono h, h.keeps.target x hx.2⟩

/-! ## Assignments and compound assignments -/

/-- The statement that takes the place of an assignment expression fits in its list. -/
theorem AssignmentExpr.statement_fits (op : AssignOp) {target value : ExprId} (line : ℕ)
    (ht : w.Below B target) (hv : w.Below B value) (htarget : V.target (w.arena.get target)) :
    w.Fits R B (statement op target value line) := by
  cases op with
  | set => exact assign_fits ⟨ht, htarget⟩ hv
  | compound op =>
    exact .simple (by simp [statement, StmtKind.roots, ht, hv]) htarget rfl

/-- An assignment becomes the call of a new literal that ranks below it. -/
theorem AssignmentExpr.hoist_edits (hV : V.Stable) {space : Workspace Unit} {y : ExprId}
    (h : w.Sound R space.arena) (hy : y.index < w.arena.size) (line : ℕ) :
    Edits (Ranking.Sound R) (hoist line y) (fun _ _ => True) w space := by
  unfold hoist
  refine Edits.arena ?_
  split
  · rename_i op target value hget
    have hrefs : ∀ x ∈ [target, value], w.Below (w.rank y) x := by
      intro x hx
      have hrefers : space.arena.Refers y x := by
        unfold Arena.Refers
        rw [hget]
        exact List.mem_append_left _ hx
      exact ⟨h.size_eq ▸ h.ranked.inside y x hrefers, h.ranked.lt y x hrefers⟩
    have ht := hrefs target (by simp)
    have htarget : V.target (w.arena.get target) := h.arena ▸ h.targets y op target value hget
    refine Edits.bind (Edits.build (h.function hV (B := w.rank y)
      ⟨[], false, [statement op target value line, .ret [target] line]⟩ (by simp [Vocabulary.Params])
      (fun s hs => ?_) fun _ => ?_)) fun w₁ closure space₁ h₁ hs₁ ⟨hclosure, hext⟩ => ?_
    · rcases List.mem_cons.1 hs with rfl | hs
      · exact statement_fits op line ht (hrefs value (by simp)) htarget
      · obtain rfl := List.mem_singleton.1 hs
        exact .simple (by simpa [Stmt.ret, StmtKind.roots] using ht) trivial rfl
    · cases op <;> simp [Block.ReturnsLast, statement, Stmt.assign, StmtKind.isReturn]
    -- the closure is made of nodes below the assignment, which is replaced
    -- only then
    · have hget₁ : space₁.arena.get y = .arith (.assign op target value) := by
        rw [hs₁.arena, hext.get_eq y (h.size_eq ▸ hy), hget]
      have hrank : w₁.rank y = w.rank y := h₁.rank y hy
      obtain ⟨hle, hs₂⟩ := hs₁.set (i := y) (e := .call closure [])
        (by simpa [Expr.call, Expr.refs, Expr.children, hrank] using hclosure) trivial
        (by simp [Expr.call]) (fun _ => trivial) (fun _ => rfl)
        (fun ht => hV.other _ _ ht (by rw [hget₁]; rfl)) rfl
      exact Edits.replace hle hs₂
  · exact Edits.pure h trivial

/-- **Assignment expressions** give way to calls of literals that assign. -/
theorem AssignmentExpr.keeps (hV : V.Stable) : AssignmentExpr.pass.Keeps V R := by
  constructor
  · exact fun _ _ => rfl
  · intro w B x owner space h hx
    refine Edits.arena (Edits.forM h fun w' y space' hy hle h' => ?_)
    have hinside : y.index < w.arena.size := h.size_eq ▸
      h.ranked.inside_of_reaches (h.size_eq ▸ hx.1) (Arena.reaches_of_mem_descendants hy)
    exact hoist_edits hV h' (hinside.trans_le hle.size) _
  · intro w B c space h hslots hshape
    exact Edits.pure h ⟨hslots, hshape, le_rfl⟩

/-- A statement of a list takes the place of another. -/
theorem Cursor.fits_replace {c : Cursor} {s : Stmt} (hle : w ≤ w')
    (hslots : ∀ slot ∈ c.slots, w.Fits R B slot.stmt) (hs : w'.Fits R B s) :
    ∀ slot ∈ (c.replace s).slots, w'.Fits R B slot.stmt :=
  forall_replace (fun slot hslot => (hslots slot hslot).mono hle) hs

/-- What fits keeps fitting when a statement is put before it. -/
theorem Cursor.fits_insertBefore {c : Cursor} {s : Stmt} (hle : w ≤ w')
    (hslots : ∀ slot ∈ c.slots, w.Fits R B slot.stmt) (hs : w'.Fits R B s) :
    ∀ slot ∈ (c.insertBefore s).slots, w'.Fits R B slot.stmt :=
  forall_insertBefore (fun slot hslot => (hslots slot hslot).mono hle) hs

/-- **Compound assignments** give way to assignments of an operation. -/
theorem CompoundAssignment.keeps (hV : V.Stable) : CompoundAssignment.pass.Keeps V R := by
  constructor
  · exact fun _ _ => rfl
  · intro w B x owner space h hx
    exact Edits.pure h trivial
  · intro w B c space h hslots hshape
    dsimp only [pass, Pass.ofStatement]
    split
    · rename_i target op value hkind
      have hfits : w.Fits R B c.stmt := hslots c.focus (Cursor.mem_slots.2 (.inr (.inl rfl)))
      have ht := hfits.root (x := target) (by simp [hkind, StmtKind.roots])
      have hv := hfits.root (x := value) (by simp [hkind, StmtKind.roots])
      have htarget : V.target (w.arena.get target) := by
        have := hfits.sound.1
        rwa [hkind] at this
      refine Edits.bind (Edits.build (h.binary hV op ht hv)) fun w₁ result space₁ h₁ hs₁ hr => ?_
      refine Edits.pure hs₁ ⟨Cursor.fits_replace h₁ hslots ?_, fun hR => ?_, le_rfl⟩
      · exact assign_fits (Ranking.target_mono h₁ ⟨ht, htarget⟩) hr
      · exact Cursor.returnsLast_replace rfl (hshape hR)
    · exact Edits.pure h ⟨hslots, hshape, le_rfl⟩

/-! ## Imports -/

/-- The member of a holder is below any bound. -/
theorem Import.readMember_builds (hV : V.Stable) (h : w.Sound R a) (B : ℚ) {holder text : String}
    (hholder : V.name holder) (htext : V.name text) :
    Builds (Ranking.Sound R) (readMember holder text) (fun w' i => w'.Below B i) w a := by
  refine Builds.bind (h.name hV B hholder) fun w₁ object a₁ h₁ hs₁ hobject => ?_
  exact (hs₁.member hV hobject.1 htext).mono fun _ _ _ hi => hi.1

/-- **Imports** give way to locals, with a holder in front. -/
theorem Import.keeps (hV : V.Stable) : Import.pass.Keeps V R := by
  constructor
  · exact fun _ _ => rfl
  · intro w B x owner space h hx
    exact Edits.pure h trivial
  · intro w B c space h hslots hshape
    dsimp only [pass, Pass.ofStatement]
    split
    · rename_i binding source hkind
      have hfits : w.Fits R B c.stmt := hslots c.focus (Cursor.mem_slots.2 (.inr (.inl rfl)))
      have hsource := hfits.root (x := source) (by simp [hkind, StmtKind.roots])
      have hbinding : V.Binding binding := by
        have := hfits.sound.1
        rwa [hkind] at this
      have hcall : Builds (Ranking.Sound R) (do Build.call (← Build.name "require") [source])
          (fun w' i => w'.Below B i ∧ (w'.arena.get i).isCall) w space.arena := by
        refine Builds.bind (h.name hV B hV.require) fun w₁ target a₁ h₁ hs₁ ht => ?_
        exact hs₁.call hV ht.1 (by simpa using hsource.mono h₁)
      refine Edits.bind (Edits.build hcall) fun w₁ module space₁ h₁ hs₁ hmodule => ?_
      cases binding with
      | default name =>
        refine Edits.pure hs₁ ⟨Cursor.fits_replace h₁ hslots ?_, fun hR => ?_, le_rfl⟩
        · exact localDecl_fits (by simp) (by simpa using (show V.name name from hbinding))
            (by simpa using hmodule.1)
        · exact Cursor.returnsLast_replace rfl (hshape hR)
      | named names =>
        refine Edits.bind (Edits.state hs₁) fun w₂ count space₂ h₂ hs₂ _ => ?_
        refine Edits.bind (Edits.setState hs₂) fun w₃ _ space₃ h₃ hs₃ _ => ?_
        refine Edits.bind (Edits.build (Builds.mapM (Q := fun w' i => w'.Below B i) (fun hle hi => hi.mono hle) hs₃
          fun w' name a' hname _ hs' => readMember_builds hV hs' B (hV.holder count)
            (hbinding.2 name hname))) fun w₄ values space₄ h₄ hs₄ hvalues => ?_
        have h₁₄ : w₁ ≤ w₄ := (h₂.trans h₃).trans h₄
        -- the module is held by a name of its own, declared before the members
        have hholder : w₄.Fits R B (.localDecl [holder count] [module] c.line) :=
          localDecl_fits (by simp) (by simpa using hV.holder count)
            (by simpa using hmodule.1.mono h₁₄)
        refine Edits.pure hs₄ ⟨?_, fun hR => ?_, le_rfl⟩
        · exact Cursor.fits_replace (w := w₄) le_rfl
            (Cursor.fits_insertBefore (h₁.trans h₁₄) hslots hholder)
            (localDecl_fits hbinding.1 hbinding.2 hvalues.2)
        · exact Cursor.returnsLast_replace rfl (Cursor.returnsLast_insertBefore rfl (hshape hR))
    · exact Edits.pure h ⟨hslots, hshape, le_rfl⟩

/-! ## Intrinsics -/

namespace Intrinsic

/-- The function that reads a variable. -/
theorem getter_builds (hV : V.Stable) (h : w.Sound R a) (B : ℚ) {name : String}
    (hname : V.name name) (line : ℕ) :
    Builds (Ranking.Sound R) (getter name line) (fun w' i => w'.Below B i) w a := by
  refine Builds.bind (h.name hV B hname) fun w₁ value a₁ h₁ hs₁ hvalue => ?_
  refine (hs₁.function hV ⟨[], false, [.ret [value] line]⟩ (by simp [Vocabulary.Params])
    (fun s hs => ?_) fun _ => List.isChain_singleton _).mono fun _ _ _ hi => hi.1
  obtain rfl := List.mem_singleton.1 hs
  exact .simple (by simpa [Stmt.ret, StmtKind.roots] using hvalue.1) trivial rfl

/-- The function that assigns it. -/
theorem setter_builds (hV : V.Stable) (h : w.Sound R a) (B : ℚ) {name : String}
    (hname : V.name name) (line : ℕ) :
    Builds (Ranking.Sound R) (setter name line) (fun w' i => w'.Below B i) w a := by
  refine Builds.bind (h.name hV B hname) fun w₁ target a₁ h₁ hs₁ ht => ?_
  refine Builds.bind (hs₁.name hV B hV.argument) fun w₂ value a₂ h₂ hs₂ hv => ?_
  refine (hs₂.function hV ⟨["v"], false, [.assign [target] [value] line]⟩
    (by simpa [Vocabulary.Params] using hV.argument) (fun s hs => ?_)
    fun _ => List.isChain_singleton _).mono fun _ _ _ hi => hi.1
  obtain rfl := List.mem_singleton.1 hs
  exact assign_fits (Ranking.target_mono h₂ ht) hv.1

/-- The table of both. -/
theorem descriptor_builds (hV : V.Stable) (h : w.Sound R a) (B : ℚ) {name : String}
    (hname : V.name name) (line : ℕ) :
    Builds (Ranking.Sound R) (descriptor line name) (fun w' i => w'.Below B i) w a :=
  (Ranking.Sound.makesTables hV B).descriptor (getter_builds hV h B hname line)
    fun h' => setter_builds hV h' B hname line

/-- The call that a function under an intrinsic is given to. -/
theorem decorate_builds (hV : V.Stable) (h : w.Sound R a) {intrinsic : ExprId}
    {args : List ExprId} (signature : String) {func : FuncBody} (hi : w.Below B intrinsic)
    (hargs : ∀ x ∈ args, w.Below B x) (hparams : V.Params func)
    (hbody : (R → Block.ReturnsLast func.body) ∧ ∀ s ∈ func.body, w.Fits R B s) :
    Builds (Ranking.Sound R) (decorate intrinsic args signature func) (fun w' i => w'.Below B i)
      w a := by
  unfold decorate
  refine Builds.bind (h.text hV B signature) fun w₁ text a₁ h₁ hs₁ htext => ?_
  refine Builds.bind (hs₁.function hV _ hparams (fun s hs => (hbody.2 s hs).mono h₁) hbody.1)
    fun w₂ literal a₂ h₂ hs₂ hl => ?_
  refine (hs₂.call hV ((hi.mono h₁).mono h₂) fun x hx => ?_).mono fun _ _ _ hi => hi.1
  rcases List.mem_append.1 hx with hx | hx
  · exact (hargs x hx).mono (h₁.trans h₂)
  · rcases List.mem_cons.1 hx with rfl | hx
    · exact htext.mono h₂
    · rw [List.mem_singleton.1 hx]
      exact hl.1

/-- A method has its body whether or not `self` is among its parameters. -/
@[simp] theorem definedFunction_body (path : FunctionPath) (func : FuncBody) :
    (definedFunction path func).body = func.body := by
  unfold definedFunction
  split <;> rfl

/-- What decorating the statement behind an intrinsic leaves: another
statement in its place or one more behind it, and one in place of the
intrinsic. -/
structure Decorated (focus aside : Stmt → Prop) (next : Cursor) (result : Cursor × Stmt) :
    Prop where
  before : result.1.before = next.before
  fresh : result.1.focus.fresh = next.focus.fresh
  focus : focus result.1.stmt
  after : result.1.after = next.after ∨ ∃ s, result.1.after = ⟨s, true⟩ :: next.after ∧ aside s
  left : aside result.2

/-- The walk goes on from the statement behind the intrinsic. -/
theorem Decorated.back {focus aside : Stmt → Prop} {slot next : Slot} {before after : List Slot}
    {result : Cursor × Stmt} (h : Decorated focus aside ⟨slot :: before, next, after⟩ result) :
    (result.1.backTo before.length).replace result.2 =
      ⟨before, { slot with stmt := result.2 }, result.1.focus :: result.1.after⟩ := by
  obtain ⟨⟨before₁, focus₁, after₁⟩, left⟩ := result
  obtain rfl := h.before
  rw [Cursor.backTo_index]
  rfl

/-- What holds of a list afterwards. -/
theorem Decorated.forall_slots {focus aside P : Stmt → Prop} {slot next : Slot}
    {before after : List Slot} {result : Cursor × Stmt}
    (h : Decorated focus aside ⟨slot :: before, next, after⟩ result) (hfocus : ∀ s, focus s → P s)
    (haside : ∀ s, aside s → P s) (hbefore : ∀ slot ∈ before, P slot.stmt)
    (hafter : ∀ slot ∈ after, P slot.stmt) :
    ∀ slot ∈ ((result.1.backTo before.length).replace result.2).slots, P slot.stmt := by
  rw [h.back, Cursor.forall_slots, List.forall_mem_cons, List.forall_mem_cons]
  refine ⟨⟨haside _ h.left, hbefore⟩, hfocus _ h.focus, ?_⟩
  rcases h.after with heq | ⟨s, heq, hs⟩
  · rwa [heq]
  · rw [heq]
    exact List.forall_mem_cons.2 ⟨haside s hs, hafter⟩

/-- No more visits are ahead than before. -/
theorem Decorated.countP_le {focus aside : Stmt → Prop} {slot next : Slot}
    {before after : List Slot} {result : Cursor × Stmt}
    (h : Decorated focus aside ⟨slot :: before, next, after⟩ result) :
    (((result.1.backTo before.length).replace result.2).after.countP fun slot => !slot.fresh) ≤
      (next :: after).countP fun slot => !slot.fresh := by
  have hfresh : result.1.focus.fresh = next.fresh := h.fresh
  rw [h.back]
  rcases h.after with heq | ⟨s, heq, -⟩ <;> simp [List.countP_cons, heq, hfresh]

/-- An empty statement fits anywhere. -/
theorem ignore_fits {line : ℕ} : w.Fits R B (.ignore line) :=
  .simple (by simp [Stmt.ignore, StmtKind.roots]) trivial rfl

/-- The parameters of a method are names, `self` among them. -/
theorem definedFunction_params (hV : V.Stable) (path : FunctionPath) {func : FuncBody}
    (h : V.Params func) : V.Params (definedFunction path func) := by
  unfold definedFunction
  split
  · exact List.forall_mem_cons.2 ⟨hV.self, h⟩
  · exact h

/-- The call of an intrinsic with the descriptors of declared names. -/
theorem describe_builds (hV : V.Stable) (h : w.Sound R a) (line : ℕ) {intrinsic : ExprId}
    {args : List ExprId} {names : List String} (hi : w.Below B intrinsic)
    (hargs : ∀ x ∈ args, w.Below B x) (hnames : ∀ n ∈ names, V.name n) :
    Builds (Ranking.Sound R) (do
        let descriptors ← names.mapM (descriptor line)
        Build.call intrinsic (args ++ descriptors))
      (fun w' i => w'.Below B i ∧ (w'.arena.get i).isCall) w a := by
  refine Builds.bind (Builds.mapM (Q := fun w' i => w'.Below B i) (fun hle hi => hi.mono hle) h
    fun w' name a' hname _ hs' => descriptor_builds hV hs' B (hnames name hname) line)
    fun w₁ descriptors a₁ h₁ hs₁ hd => ?_
  refine hs₁.call hV (hi.mono h₁) fun x hx => ?_
  rcases List.mem_append.1 hx with hx | hx
  · exact (hargs x hx).mono h₁
  · exact hd.2 x hx

/-- **Under an intrinsic** the statement gives way to one that fits, or is refused. -/
theorem decorateNext_edits (hV : V.Stable) {space : Workspace Unit} (h : w.Sound R space.arena)
    (line : ℕ) {intrinsic : ExprId} {args : List ExprId} (next : Cursor)
    (hi : w.Below B intrinsic) (hargs : ∀ x ∈ args, w.Below B x) (hnext : w.Fits R B next.stmt) :
    Edits (Ranking.Sound R) (decorateNext line intrinsic args next)
      (fun w' => Decorated (fun s => w'.Fits R B s ∧ s.kind.isReturn = false)
        (fun s => w'.Fits R B s ∧ s.kind.isReturn = false) next) w space := by
  have hsound := hnext.sound.1
  have hargs' {w' : Ranking V} (hle : w ≤ w') : ∀ x ∈ args, w'.Below B x := fun x hx =>
    (hargs x hx).mono hle
  have hbody {func : FuncBody} (hb : func.body ∈ next.stmt.kind.blocks) {w' : Ranking V}
      (hle : w ≤ w') :
      (R → Block.ReturnsLast func.body) ∧ ∀ s ∈ func.body, w'.Fits R B s :=
    ⟨(hnext.nested hb).1, fun s hs => ((hnext.nested hb).2 s hs).mono hle⟩
  unfold decorateNext
  split
  -- a declaration is kept, and the call with its names goes behind it
  · rename_i names values hkind
    rw [hkind] at hsound
    refine Edits.bind (Edits.build (describe_builds hV h next.line hi hargs hsound.2))
      fun w₁ call space₁ h₁ hs₁ hc => ?_
    refine Edits.pure hs₁ ⟨rfl, rfl, ⟨hnext.mono h₁, ?_⟩, .inr ⟨_, rfl, ?_, rfl⟩, ignore_fits, rfl⟩
    · show next.stmt.kind.isReturn = false
      rw [hkind]
      rfl
    · exact .simple (by simpa [Stmt.call, StmtKind.roots] using hc.1) hc.2 rfl
  -- a function at a path becomes an assignment of what the call gives
  · rename_i path func hkind
    rw [hkind] at hsound
    refine Edits.bind (Edits.build (h.path hV (B := B) hsound.1.2.2)) fun w₁ i? space₁ h₁ hs₁ hi? => ?_
    cases i? with
    | none => exact absurd (hi?.1.1 rfl) hsound.1.1
    | some target =>
      refine Edits.bind (Edits.build (decorate_builds hV hs₁ _ (hi.mono h₁) (hargs' h₁)
        (definedFunction_params hV path hsound.2) ?_)) fun w₂ call space₂ h₂ hs₂ hc => ?_
      · rw [definedFunction_body]
        exact hbody (by simp [hkind, StmtKind.blocks]) h₁
      · exact Edits.pure hs₂ ⟨rfl, rfl,
          ⟨assign_fits (Ranking.target_mono h₂ (hi?.2 target rfl)) hc, rfl⟩, .inl rfl, ignore_fits, rfl⟩
  -- a local function becomes a declaration and then such an assignment
  · rename_i name func hkind
    rw [hkind] at hsound
    refine Edits.bind (Edits.build (h.name hV B hsound.1)) fun w₁ target space₁ h₁ hs₁ ht => ?_
    refine Edits.bind (Edits.build (decorate_builds hV hs₁ _ (hi.mono h₁) (hargs' h₁) hsound.2
      (hbody (by simp [hkind, StmtKind.blocks]) h₁))) fun w₂ call space₂ h₂ hs₂ hc => ?_
    refine Edits.pure hs₂ ⟨rfl, rfl, ⟨assign_fits (Ranking.target_mono h₂ ht) hc, rfl⟩, .inl rfl, ?_, rfl⟩
    exact localDecl_fits (by simp) (by simpa using hsound.1) (by simp)
  · exact Edits.throw h

/-- **Intrinsics** give way to declarations and definitions that are decorated. -/
theorem keeps (hV : V.Stable) : Intrinsic.pass.Keeps V R := by
  constructor
  · exact fun _ _ => rfl
  · intro w B x owner space h hx
    exact Edits.pure h trivial
  · intro w B c space h hslots hshape
    dsimp only [pass, Pass.ofStatement]
    split
    · rename_i intrinsic args hkind
      have hfits : w.Fits R B c.stmt := hslots c.focus (Cursor.mem_slots.2 (.inr (.inl rfl)))
      have hi := hfits.root (x := intrinsic) (by simp [hkind, StmtKind.roots])
      have hargs : ∀ x ∈ args, w.Below B x := fun x hx =>
        hfits.root (by simp [hkind, StmtKind.roots, hx])
      -- of the list nothing but the intrinsic and the statement ahead changes
      rcases c with ⟨before, focus, after⟩
      cases after with
      | nil => exact Edits.throw h
      | cons slot after =>
        have hslot : w.Fits R B slot.stmt := hslots slot (Cursor.mem_slots.2 (by simp))
        refine Edits.bind (decorateNext_edits hV h _ ⟨focus :: before, slot, after⟩ hi hargs
          hslot) fun w₁ result space₁ h₁ hs₁ hd => ?_
        have hkept : ∀ slot ∈ before ++ after, w₁.Fits R B slot.stmt := fun slot hs =>
          (hslots slot (Cursor.mem_slots.2 (by simp at hs ⊢; tauto))).mono h₁
        refine Edits.pure hs₁ ⟨hd.forall_slots (fun _ => And.left) (fun _ => And.left)
          (fun slot hs => hkept slot (List.mem_append_left _ hs))
          fun slot hs => hkept slot (List.mem_append_right _ hs), fun hR => ?_, hd.countP_le⟩
        have hlast := hshape hR
        -- the cursor is back where it was, so a return can only be last as before
        have hback : (result.1.backTo (Cursor.index ⟨before, focus, slot :: after⟩)).replace
            result.2 = _ := hd.back
        rw [hback]
        rw [Cursor.slots_map_stmt, Block.returnsLast_append (by simp)] at hlast ⊢
        have hahead : Block.ReturnsLast (result.1.after.map Slot.stmt) := by
          rcases hd.after with heq | ⟨s, heq, -, hreturn⟩
          · rw [heq]
            exact hlast.2.tail.tail
          · rw [heq]
            exact Block.ReturnsLast.cons hlast.2.tail.tail hreturn
        exact ⟨hlast.1, (hahead.cons hd.focus.2).cons hd.left.2⟩
    · exact Edits.pure h ⟨hslots, hshape, le_rfl⟩

end Intrinsic

/-! ## Elements and names -/

/-- Descendants of an id below a bound are below it. -/
theorem Ranking.Sound.below_of_mem_descendants (h : w.Sound R a) {x y : ExprId}
    (hx : w.Below B x) (hy : y ∈ a.descendants x) : w.Below B y := by
  have hreach := Arena.reaches_of_mem_descendants hy
  refine ⟨h.size_eq ▸ h.ranked.inside_of_reaches (h.size_eq ▸ hx.1) hreach, ?_⟩
  rcases Relation.reflTransGen_iff_eq_or_transGen.1 hreach with rfl | hlt
  · exact hx.2
  · exact (h.ranked.lt_of_transGen hlt).trans hx.2

namespace Element

/-- The call of an element is built below every bound that is above what the
element holds. -/
theorem call_builds (hV : V.Stable) (h : w.Sound R a) {constructor : String}
    (hc : V.name constructor) {e : Element} {inner : ExprId → Build Unit} (hname : V.name e.name)
    (he : ∀ x ∈ (Expr.atom (.element e)).children, w.Below B x)
    (hinner : ∀ {w' a' x}, w ≤ w' → w'.Sound R a' → w'.Below B x →
      Builds (Ranking.Sound R) (inner x) (fun _ _ => True) w' a') :
    Builds (Ranking.Sound R) (call constructor inner e)
      (fun w' node => ∃ target args, node = .call target args ∧ ∀ x ∈ target :: args, w'.Below B x)
      w a := by
  have hname' {text : String} (ht : V.name text) {w' : Ranking V} {a' : Arena}
      (h' : w'.Sound R a') :
      Builds (Ranking.Sound R) (Build.name text) (fun w' i => w'.Below B i) w' a' :=
    (h'.name hV B ht).mono fun _ _ _ hi => hi.1
  have htag : Builds (Ranking.Sound R) (Build.alloc (tag e.name)) (fun w' i => w'.Below B i) w a := by
    unfold tag
    split
    · exact hname' hname h
    · exact h.text hV B e.name
  exact (Ranking.Sound.makesTables hV B).element he htag (hname' hc) hinner

/-- Lowering an element builds below it, and so do the elements inside. -/
theorem lower_builds (hV : V.Stable) {constructor : String} (hc : V.name constructor) :
    ∀ (depth : ℕ) {w : Ranking V} {a : Arena} {id : ExprId}, w.Sound R a →
      id.index < w.arena.size →
      Builds (Ranking.Sound R) (lower constructor depth id) (fun _ _ => True) w a
  | 0, w, a, id, h, _ => Builds.pure h trivial
  | depth + 1, w, a, id, h, hid => by
    have hwithin {w' : Ranking V} {a' : Arena} {root : ExprId} (h' : w'.Sound R a')
        (hroot : w'.Below (w.rank id) root) :
        Builds (Ranking.Sound R) (within constructor depth root) (fun _ _ => True) w' a' := by
      refine Builds.get (Builds.forM h' fun w'' y a'' hy hle h'' => ?_)
      have hbelow := h'.below_of_mem_descendants hroot (List.mem_of_mem_filter hy)
      exact lower_builds hV hc depth h'' (hbelow.1.trans_le hle.size)
    rw [lower_succ]
    refine Builds.get ?_
    split
    · rename_i e hget
      have hheld : ∀ x ∈ (Expr.atom (.element e)).children, w.Below (w.rank id) x := by
        intro x hx
        have hrefers : a.Refers id x := by
          unfold Arena.Refers
          rw [hget]
          exact List.mem_append_left _ hx
        exact ⟨h.size_eq ▸ h.ranked.inside id x hrefers, h.ranked.lt id x hrefers⟩
      have hname : V.name e.name := by
        have := h.nodes id
        rw [hget] at this
        exact this.1
      -- the node is emptied first, so that what is built meanwhile does not
      -- refer to the element
      obtain ⟨h₁, hs₁⟩ := h.set (i := id) (e := .atom .nil) (by simp [Expr.refs, Expr.children])
        trivial (by simp) (fun _ => trivial) (by simp [hget, Expr.isCall])
        (fun ht => hV.other _ _ ht (by rw [hget]; rfl)) rfl
      refine Builds.bind (Q := fun w' _ => w'.arena.get id = .atom .nil)
        ⟨_, h₁, hs₁, Arena.get_set_self _ (h.size_eq ▸ hid)⟩ fun w₂ _ a₂ h₂ hs₂ hnil => ?_
      refine (call_builds hV hs₂ hc hname (fun x hx => (hheld x hx).mono h₂)
        fun _ h' hx => hwithin h' hx).bind fun w₃ node a₃ h₃ hs₃ hnode => ?_
      obtain ⟨target, args, rfl, hargs⟩ := hnode
      -- all parts were built below the rank that the node had, and the node
      -- is empty still, so that the call may take its place
      have hrank : w₃.rank id = w.rank id := (h₂.trans h₃).rank id hid
      have hother : (a₃.get id).isAssignable = false := by
        rw [hs₃.arena]
        exact h₃.other id (hid.trans_le h₂.size) (by rw [hnil]; rfl)
      obtain ⟨h₄, hs₄⟩ := hs₃.set (i := id) (e := .call target args)
        (by simpa [hrank, Expr.call, Expr.refs, Expr.children] using hargs) trivial
        (by simp [Expr.call]) (fun _ => trivial) (fun _ => rfl)
        (fun ht => hV.other _ _ ht hother) rfl
      exact Builds.modify h₄ hs₄
    · exact Builds.pure h trivial

/-- **Elements** give way to calls of the constructor. -/
theorem keeps (hV : V.Stable) {constructor : String} (hc : V.name constructor) :
    (pass constructor).Keeps V R := by
  constructor
  · exact fun _ _ => rfl
  · intro w B x owner space h hx
    refine Edits.arena (Edits.build (Builds.forM h fun w' y a' hy hle h' => ?_))
    have hbelow := h.below_of_mem_descendants hx (List.mem_of_mem_filter hy)
    exact lower_builds hV hc _ h' (hbelow.1.trans_le hle.size)
  · intro w B c space h hslots hshape
    exact Edits.pure h ⟨hslots, hshape, le_rfl⟩

end Element

/-- Naming puts texts in the place of names, so anything may be a target. -/
theorem Project.naming_keeps (htarget : ∀ e, V.target e) (name : String) :
    (naming name).Keeps V R := by
  constructor
  · exact fun _ _ => rfl
  · intro w B x owner space h hx
    refine Edits.arena (Edits.forM h fun w' y space' hy hle h' => ?_)
    refine Edits.arena ?_
    split
    · rename_i hplaceholder
      have hcall : (space'.arena.get y).isCall → (Expr.ofText name).isCall := by
        intro hcall
        cases hget : space'.arena.get y with
        | atom x => simp [hget, Expr.isCall] at hcall
        | arith x => simp [hget, isPlaceholder] at hplaceholder
      obtain ⟨hle', hs'⟩ := h'.set (i := y) (e := .ofText name)
        (by simp [Expr.ofText, Expr.refs, Expr.children]) trivial (by simp [Expr.ofText])
        (fun _ => trivial) hcall (fun _ => htarget _) rfl
      exact Edits.replace hle' hs'
    · exact Edits.pure h' trivial
  · intro w B c space h hslots hshape
    exact Edits.pure h ⟨hslots, hshape, le_rfl⟩

end LuaSugar
