import Mathlib
import LuaSugar.Proofs.Syntax.Load
import LuaSugar.Proofs.Desugar.Stage
import LuaSugar.Proofs.Desugar.Sound
/-!
# Passes that leave nothing of a construct

What a pass has to show so that no construct of its kind is left in a
chunk. A callback for a root finishes what is below it, children first; a
callback for a statement leaves finished statements behind, and ahead what
is still to be visited.

Ids stay ranked meanwhile, which the callbacks may count on, so the
contract runs beside the one for soundness. Nothing is promised after a
failure, where the walk stops short.
-/

namespace LuaSugar

variable {k : ℕ}

/-- A slot ahead: inserted statements are finished. -/
def Slot.wait (slot : Slot) (d : ℕ) : ℕ := if slot.fresh then 0 else d + 1

namespace Stage

variable {w w' : Stage} {a : Arena} {d : ℕ} {x y : ExprId} {e : Expr}

/-- A node above finished ones, to which only its own construct may still
be due. -/
structure Ready (k : ℕ) (w : Stage) (e : Expr) : Prop where
  free : e.Free k
  children : ∀ x ∈ e.children, x ∈ w.within 0
  body : ∀ func, e = .atom (.func func) → ∀ s ∈ func.body, w.Todo k 0 s

/-- A node that is ready is finished once its own construct is gone. -/
theorem Ready.node (h : w.Ready k e) (hfree : e.Free (k + 1)) : w.Node k 0 e :=
  ⟨hfree, h.children, h.body⟩

/-- What is below a node is as deep at most. -/
theorem Good.below_of_mem_descendants (h : w.Good k a) (hx : x ∈ w.within d)
    (hy : y ∈ a.descendants x) : y ∈ w.within d :=
  Arena.mem_of_mem_descendants (fun i hi => (h.nodes d i hi).children) hx hy

/-- **Below a root** whose descendants are visited from below, the next one
is ready. -/
theorem Good.ready (h : w.Good k a) {ρ : ExprId → ℚ} (hr : a.Ranked ρ) (hx : x ∈ w.within d)
    (hseen : ∀ y ∈ a.descendants x, y ∈ w.within 0 ∨ a.body? y = none) {l₁ l₂ : List ExprId}
    (hl : a.descendants x = l₁ ++ y :: l₂) {b : Arena} (hle : w ≤ w') (hb : w'.Good k b)
    (hbehind : ∀ c ∈ l₁, c ∈ w'.within 0) : y.index < b.size ∧ w'.Ready k (b.get y) := by
  have hy : y ∈ a.descendants x := hl ▸ by simp
  have hwithin : y ∈ w.within d := h.below_of_mem_descendants hx hy
  have hnode := hb.nodes d y (hle.within d hwithin)
  refine ⟨hb.inside d y (hle.within d hwithin), ?_⟩
  by_cases hdone : y ∈ w'.within 0
  · have hnode := hb.nodes 0 y hdone
    exact ⟨hnode.free.of_succ, hnode.children, hnode.body⟩
  · -- still the same from outside: its children are behind, and it is no literal
    have hhollow : (b.get y).hollow = (a.get y).hollow := by
      have hshell := (hle.shell y (h.arena ▸ h.inside d y hwithin)).resolve_left hdone
      rwa [← h.arena, ← hb.arena] at hshell
    refine ⟨?_, fun c hc => hbehind c ?_, fun func hfunc => ?_⟩
    · have hfree := hnode.free
      cases d with
      | zero => exact hfree.of_succ
      | succ d => exact hfree
    · rw [← Expr.children_hollow, hhollow, Expr.children_hollow] at hc
      exact hr.childrenFirst x l₁ y l₂ hl c hc
    · have hnone := (hseen y hy).resolve_left fun hy => hdone (hle.within 0 hy)
      have := Arena.body?_of_hollow hhollow hnone
      simp [Arena.body?, hfunc] at this

/-- Where nothing is due of nodes, everything below a root is finished. -/
theorem Good.finish (h : w.Good k a) {ρ : ExprId → ℚ} (hr : a.Ranked ρ) (hx : x ∈ w.within d)
    (hseen : ∀ y ∈ a.descendants x, y ∈ w.within 0 ∨ a.body? y = none)
    (hfree : ∀ e : Expr, e.Free k → e.Free (k + 1)) :
    ∃ w', w ≤ w' ∧ w'.Good k a ∧ x ∈ w'.within 0 := by
  have hbehind : ∀ l₁ l₂, a.descendants x = l₁ ++ l₂ →
      ∃ w', w ≤ w' ∧ w'.Good k a ∧ ∀ y ∈ l₁, y ∈ w'.within 0 := by
    intro l₁
    induction l₁ using List.reverseRecOn with
    | nil => exact fun _ _ => ⟨w, le_rfl, h, by simp⟩
    | append_singleton l₁ y ih =>
      intro l₂ hl
      rw [List.append_assoc, List.singleton_append] at hl
      obtain ⟨w₁, h₁, hg₁, hl₁⟩ := ih (y :: l₂) hl
      obtain ⟨hinside, hready⟩ := h.ready hr hx hseen hl h₁ hg₁ hl₁
      obtain ⟨w₂, h₂, hy, hg₂⟩ := hg₁.mark hinside (hready.node (hfree _ hready.free))
      refine ⟨w₂, h₁.trans h₂, hg₂, fun c hc => ?_⟩
      rcases List.mem_append.1 hc with hc | hc
      · exact h₂.within 0 (hl₁ c hc)
      · rwa [List.mem_singleton.1 hc]
  obtain ⟨w', hle, hg, hall⟩ := hbehind _ [] (List.append_nil _).symm
  exact ⟨w', hle, hg, hall x (a.self_mem_descendants x)⟩

end Stage

/-! ## What a pass has to show -/

/-- A definition has a name. -/
def StmtKind.Named (kind : StmtKind) : Prop :=
  ∀ path func, kind = .function path func → path.segments ≠ []

/-- A pass finishes what its callbacks are called for. -/
structure Pass.Cleans {σ ε : Type} (k : ℕ) (r : Pass σ ε) : Prop where
  expression : ∀ {w : Stage} {d x} (owner : Stmt) {space} {ρ : ExprId → ℚ},
    w.Good k space.arena → space.arena.Ranked ρ → x ∈ w.within d →
    (∀ y ∈ space.arena.descendants x, y ∈ w.within 0 ∨ space.arena.body? y = none) →
    Edits (Stage.Good k) (r.expression x owner) (fun w' _ => x ∈ w'.within 0) w space
  statement : ∀ {w : Stage} {d} (c : Cursor) {space}, w.Good k space.arena →
    c.stmt.kind.Free k → (∀ x ∈ c.stmt.kind.roots, x ∈ w.within 0) →
    (∀ b ∈ c.stmt.kind.blocks, ∀ t ∈ b, w.Todo k 0 t) →
    (∀ slot ∈ c.before, w.Todo k 0 slot.stmt) →
    (∀ slot ∈ c.after, w.Todo k (slot.wait d) slot.stmt) →
    (∀ slot ∈ c.after, slot.stmt.kind.Named) →
    Edits (Stage.Good k) (r.statement c) (fun w' c' =>
      (∀ slot ∈ c'.focus :: c'.before, w'.Todo k 0 slot.stmt) ∧
      ∀ slot ∈ c'.after, w'.Todo k (slot.wait d) slot.stmt) w space

namespace Pass

variable {σ ε α : Type}

/-! ## Stages until a failure -/

/-- What holds of the stage, if there is one still. -/
def Unless (w : WithTop Stage) (P : Stage → Prop) : Prop := ∀ v : Stage, w = ↑v → P v

/-- What lasts from stage to stage holds of later ones too. -/
theorem Unless.mono {w w' : WithTop Stage} {P : Stage → Prop}
    (hP : ∀ {v v' : Stage}, v ≤ v' → P v → P v') (h : w ≤ w') (hw : Unless w P) :
    Unless w' P := by
  rintro v' rfl
  obtain ⟨v, rfl, hv⟩ := WithTop.le_coe_iff.1 h
  exact hP hv (hw v rfl)

/-- At a stage it holds of that stage. -/
theorem unless_coe {v : Stage} {P : Stage → Prop} : Unless (v : WithTop Stage) P ↔ P v := by
  constructor
  · exact fun h => h v rfl
  · intro h v' hv
    rwa [← WithTop.coe_injective hv]

/-- Behind a failure nothing is claimed. -/
theorem unless_top {P : Stage → Prop} : Unless ⊤ P := fun _ hv => absurd hv.symm (WithTop.coe_ne_top)

/-- The walk is at a stage, or has failed. -/
structure AtStage (k : ℕ) (w : WithTop Stage) (walk : Walk σ ε) : Prop where
  failed : w = ⊤ → walk.failure.isSome
  good : Unless w fun v => walk.failure = none ∧ v.Good k walk.space.arena ∧
    ∀ x ∈ walk.seen, x ∈ v.within 0

/-- A walk without a failure is at the stage of its arena. -/
theorem AtStage.coe {v : Stage} {walk : Walk σ ε} (hfailure : walk.failure = none)
    (hgood : v.Good k walk.space.arena) (hseen : ∀ x ∈ walk.seen, x ∈ v.within 0) :
    AtStage k (v : WithTop Stage) walk :=
  ⟨fun hv => absurd hv WithTop.coe_ne_top, unless_coe.2 ⟨hfailure, hgood, hseen⟩⟩

/-- A walk with a failure is behind it. -/
theorem AtStage.top {walk : Walk σ ε} (h : walk.failure.isSome) : AtStage k ⊤ walk :=
  ⟨fun _ => h, unless_top⟩

/-- A callback goes from stage to stage, or fails. -/
theorem AtStage.attempt {edit : Edit σ ε α} {default : α} {Q : Stage → α → Prop}
    {w : WithTop Stage} {walk : Walk σ ε} (h : AtStage k w walk)
    (he : ∀ v : Stage, w = ↑v → v.Good k walk.space.arena →
      Edits (Stage.Good k) edit Q v walk.space) :
    Leads (AtStage k) (Pass.attempt edit default) (fun w' a => Unless w' fun v => Q v a) w walk := by
  unfold Leads
  rw [attempt_eq]
  induction w using WithTop.recTopCoe with
  | top =>
    rw [if_pos (h.failed rfl)]
    exact ⟨⊤, le_rfl, h, unless_top⟩
  | coe v =>
    obtain ⟨hfailure, hgood, hseen⟩ := h.good v rfl
    obtain ⟨v₁, hle, hgood₁, hq⟩ := he v rfl hgood
    rw [if_neg (by simp [hfailure])]
    rcases hedit : edit.run walk.space with ⟨r, space⟩
    rw [hedit] at hgood₁ hq
    cases r with
    | ok value =>
      exact ⟨v₁, WithTop.coe_le_coe.2 hle, .coe hfailure hgood₁ fun x hx => hle.within 0 (hseen x hx),
        unless_coe.2 (hq value rfl)⟩
    | error e => exact ⟨⊤, le_top, .top rfl, unless_top⟩

/-- Two accounts of one run. -/
theorem Leads.prod {W W' : Type} [Preorder W] [Preorder W'] {inv : W → Walk σ ε → Prop}
    {inv' : W' → Walk σ ε → Prop} {m : StateM (Walk σ ε) α} {Q : W → α → Prop}
    {Q' : W' → α → Prop} {w : W × W'} {walk : Walk σ ε} (h : Leads inv m Q w.1 walk)
    (h' : Leads inv' m Q' w.2 walk) :
    Leads (fun w walk => inv w.1 walk ∧ inv' w.2 walk) m (fun w a => Q w.1 a ∧ Q' w.2 a) w
      walk := by
  obtain ⟨w₁, hle₁, hinv₁, hq₁⟩ := h
  obtain ⟨w₂, hle₂, hinv₂, hq₂⟩ := h'
  exact ⟨(w₁, w₂), ⟨hle₁, hle₂⟩, ⟨hinv₁, hinv₂⟩, hq₁, hq₂⟩

end Pass

/-- How many passes a statement outlasts does not depend on the lists in it. -/
theorem StmtKind.lasts_hollow (kind : StmtKind) : kind.hollow.lasts = kind.lasts := by
  cases kind <;> rfl

/-- What was below a root before the literals below it were walked is seen,
and what is so now was then, or is finished. -/
theorem Stage.Good.seen_descendants {w₀ w : Stage} {a₀ a : Arena} {d : ℕ} {x : ExprId}
    (h₀ : w₀.Good k a₀) {ρ : ExprId → ℚ} (hr : a₀.Ranked ρ) (hx : x ∈ w₀.within d) (hle : w₀ ≤ w)
    (h : w.Good k a) (hseen : ∀ y ∈ a₀.descendants x, y ∈ w.within 0 ∨ a.body? y = none) :
    ∀ y ∈ a.descendants x, y ∈ w.within 0 ∨ a.body? y = none := by
  intro y hy
  have hstay : y ∈ {y | y ∈ w.within 0 ∨ y ∈ a₀.descendants x} := by
    refine Arena.mem_of_mem_descendants (fun i hi c hc => ?_) (.inr (a₀.self_mem_descendants x)) hy
    rcases hi with hi | hi
    · exact .inl ((h.nodes 0 i hi).children c hc)
    · by_cases hdone : i ∈ w.within 0
      · exact .inl ((h.nodes 0 i hdone).children c hc)
      · have hinside := h₀.inside d i (h₀.below_of_mem_descendants hx hi)
        have hhollow := (hle.shell i (h₀.arena ▸ hinside)).resolve_left hdone
        rw [← h₀.arena, ← h.arena] at hhollow
        rw [← Expr.children_hollow, hhollow, Expr.children_hollow] at hc
        exact .inr (hr.mem_descendants_of_child hi c hc)
  rcases hstay with hy | hy
  · exact .inl hy
  · exact hseen y hy

/-! ## The contract -/

namespace Pass

variable {σ ε : Type} {r : Pass σ ε} {V : Vocabulary} {R : Prop}

/-- **Finishing as a contract**, beside the one for soundness. -/
def Cleans.contract (hk : k < 5) (hV : V.Stable) (hr : r.Keeps V R) (hc : r.Cleans k) :
    Contract r (Ranking V × WithTop Stage) ℚ where
  inv w walk := w.1.Sound R walk.space.arena ∧ AtStage k w.2 walk
  todo w d B s := w.1.Fits R B s ∧ Unless w.2 fun v => v.Todo k d s
  half w d B s := w.1.Fits R B s ∧ Unless w.2 fun v => s.kind.Free k ∧
    (∀ x ∈ s.kind.roots, x ∈ v.within (d + 1)) ∧ ∀ b ∈ s.kind.blocks, ∀ t ∈ b, v.Todo k 0 t
  done w B s := w.1.Fits R B s ∧ Unless w.2 fun v => v.Todo k 0 s
  rootTodo w d B x := w.1.Below B x ∧ Unless w.2 fun v => x ∈ v.within (d + 1)
  rootDone w _ x := Unless w.2 fun v => x ∈ v.within 0
  below w d B x := w.1.Below B x ∧ Unless w.2 fun v => x ∈ v.within (d + 1)
  seen w x := Unless w.2 fun v =>
    x.index < v.arena.size ∧ (x ∈ v.within 0 ∨ v.arena.body? x = none)
  within B _ := B
  shape l := R → Block.ReturnsLast l
  todo_mono h hs := ⟨hs.1.mono h.1, hs.2.mono (fun hv => Stage.Todo.mono hv) h.2⟩
  half_mono h hs := ⟨hs.1.mono h.1, hs.2.mono (fun hv hs => ⟨hs.1,
    fun x hx => hv.within _ (hs.2.1 x hx), fun b hb t ht => (hs.2.2 b hb t ht).mono hv⟩) h.2⟩
  done_mono h hs := ⟨hs.1.mono h.1, hs.2.mono (fun hv => Stage.Todo.mono hv) h.2⟩
  rootDone_mono h hx := hx.mono (fun hv hx => hv.within 0 hx) h.2
  below_mono h hx := ⟨hx.1.mono h.1, hx.2.mono (fun hv hx => hv.within _ hx) h.2⟩
  seen_mono h hx := hx.mono (fun hv hx => ⟨hx.1.trans_le hv.size, by
    rcases hv.shell _ hx.1 with hi | hi
    · exact .inl hi
    · rcases hx.2 with hx | hx
      · exact .inl (hv.within 0 hx)
      · exact .inr (Arena.body?_of_hollow hi hx)⟩) h.2
  shape_of_hollow h hl := (hr.contract hV).shape_of_hollow h hl
  exhausted h hs := ⟨hs, h.1, h.2.failed, h.2.good⟩
  nested h hb := ⟨(h.1.nested hb).1, fun t ht => ⟨(h.1.nested hb).2 t ht,
    fun v hv => (h.2 v hv).2.2 _ hb t ht⟩⟩
  half_of_nested {w d B s s'} h hhollow hline hb := by
    refine ⟨(hr.contract hV).half_of_nested (d := d) h.1 hhollow hline fun b hm => ⟨(hb b hm).1,
      fun t ht => ((hb b hm).2 t ht).1⟩, fun v hv => ?_⟩
    obtain ⟨hfree, hroots, -⟩ := h.2 v hv
    refine ⟨?_, ?_, fun b hm t ht => ((hb b hm).2 t ht).2 v hv⟩
    · unfold StmtKind.Free
      rwa [← StmtKind.lasts_hollow, hhollow, StmtKind.lasts_hollow]
    · rwa [← StmtKind.roots_hollow, hhollow, StmtKind.roots_hollow]
  root h hx := ⟨h.1.root hx, fun v hv => (h.2 v hv).2.1 _ hx⟩
  below_of_root h hx hy := ⟨h.1.below_of_mem_descendants hx.1 hy, fun v hv =>
    (h.2.good v hv).2.1.below_of_mem_descendants (hx.2 v hv) hy⟩
  seen_of_inv h hx hseen v hv := by
    obtain ⟨-, hgood, hs⟩ := h.2.good v hv
    refine ⟨hgood.arena ▸ hgood.inside _ _ (hx.2 v hv), ?_⟩
    rcases hseen with hseen | hseen
    · exact .inl (hs _ hseen)
    · exact .inr (hgood.arena ▸ hseen)
  literal {w walk d B x body} h hx hseen hbody := by
    obtain ⟨w₁, B', hle₁, hinv₁, htodo₁, hback⟩ :=
      (hr.contract hV).literal (d := d) h.1 hx.1 hseen hbody
    rcases w with ⟨w, v⟩
    induction v using WithTop.recTopCoe with
    | top =>
      refine ⟨(w₁, ⊤), B', ⟨hle₁, le_rfl⟩, ⟨hinv₁, .top (h.2.failed rfl)⟩,
        ⟨htodo₁.1, fun s hs => ⟨htodo₁.2 s hs, unless_top⟩⟩, fun w₂ walk₂ body₂ hle₂ hinv₂ hdone => ?_⟩
      obtain ⟨w₃, hle₃, -, hinv₃⟩ := hback w₂.1 walk₂ body₂ hle₂.1 hinv₂.1
        ⟨hdone.1, fun s hs => (hdone.2 s hs).1⟩
      have htop : w₂.2 = ⊤ := WithTop.top_le_iff.1 hle₂.2
      exact ⟨(w₃, ⊤), ⟨hle₃, le_top⟩, unless_top, hinv₃, .top (hinv₂.2.failed htop)⟩
    | coe v =>
      obtain ⟨hfailure, hgood, hs⟩ := h.2.good v rfl
      have hmem := hx.2 v rfl
      obtain ⟨v₁, hlev₁, hx₁, hgood₁⟩ := hgood.setBody hk (hgood.inside _ _ hmem) []
        (.inr (by simp [hbody])) (by simp)
      refine ⟨(w₁, v₁), B', ⟨hle₁, WithTop.coe_le_coe.2 hlev₁⟩, ⟨hinv₁, .coe hfailure hgood₁ ?_⟩,
        ⟨htodo₁.1, fun s hs => ⟨htodo₁.2 s hs, unless_coe.2 ?_⟩⟩, ?_⟩
      · exact List.forall_mem_cons.2 ⟨hx₁, fun y hy => hlev₁.within 0 (hs y hy)⟩
      · obtain ⟨func, hfunc, rfl⟩ := Arena.body?_eq_some.1 hbody
        exact ((hgood.nodes _ x hmem).body func hfunc s hs).mono hlev₁
      · intro w₂ walk₂ body₂ hle₂ hinv₂ hdone
        obtain ⟨w₃, hle₃, -, hinv₃⟩ := hback w₂.1 walk₂ body₂ hle₂.1 hinv₂.1
          ⟨hdone.1, fun s hs => (hdone.2 s hs).1⟩
        rcases w₂ with ⟨w₂, v₂⟩
        induction v₂ using WithTop.recTopCoe with
        | top => exact ⟨(w₃, ⊤), ⟨hle₃, le_rfl⟩, unless_top, hinv₃, .top (hinv₂.2.failed rfl)⟩
        | coe v₂ =>
          obtain ⟨hfailure₂, hgood₂, hs₂⟩ := hinv₂.2.good v₂ rfl
          have hx₂ : x ∈ v₂.within 0 := (WithTop.coe_le_coe.1 hle₂.2).within 0 hx₁
          obtain ⟨v₃, hlev₃, hx₃, hgood₃⟩ := hgood₂.setBody hk (hgood₂.inside _ _ hx₂)
            body₂ (.inl hx₂) fun s hs => unless_coe.1 (hdone.2 s hs).2
          refine ⟨(w₃, v₃), ⟨hle₃, WithTop.coe_le_coe.2 hlev₃⟩, unless_coe.2 ⟨?_, .inl hx₃⟩, hinv₃,
            .coe hfailure₂ hgood₃ fun y hy => hlev₃.within 0 (hs₂ y hy)⟩
          exact hgood₃.arena ▸ hgood₃.inside 0 x hx₃
  expression {w₀ w walk₀ walk d B x} owner hle h₀ hx h hseen := by
    refine (Leads.prod ((hr.contract hV).expression (d := d) owner hle.1 h₀.1 hx.1 h.1
      fun _ _ => trivial) (h.2.attempt fun v hv hgood => ?_)).mono fun w' _ _ hq => hq.2
    obtain ⟨v₀, hv₀, hlev⟩ := WithTop.le_coe_iff.1 (hv ▸ hle.2)
    have hgood₀ := (h₀.2.good v₀ hv₀).2.1
    refine hc.expression owner hgood h.1.ranked (hlev.within _ (hx.2 v₀ hv₀))
      (hgood₀.seen_descendants h₀.1.ranked (hx.2 v₀ hv₀) hlev hgood fun y hy => ?_)
    exact hgood.arena ▸ (hseen y hy v hv).2
  statement {w walk d B} c h hfocus hroots hbefore hafter hshape := by
    have hfits : ∀ slot ∈ c.after, w.1.Fits R B slot.stmt := by
      intro slot hs
      have := hafter slot hs
      split at this
      · exact this.1
      · exact this.1
    have hnamed : ∀ slot ∈ c.after, slot.stmt.kind.Named := by
      intro slot hs path func hkind
      have hsound := (hfits slot hs).sound.1
      rw [hkind] at hsound
      exact hsound.1.1
    rw [hr.first.visit]
    refine (Leads.prod (hr.first.visit c ▸ (hr.contract hV).statement (d := d) c h.1 hfocus.1 (fun _ _ => trivial)
      (fun slot hs => (hbefore slot hs).1) (fun slot hs => (ite_self _).mpr (hfits slot hs)) hshape)
      (h.2.attempt
        (Q := fun v c' => (∀ slot ∈ c'.focus :: c'.before, v.Todo k 0 slot.stmt) ∧
          ∀ slot ∈ c'.after, v.Todo k (slot.wait d) slot.stmt)
        fun v hv hgood => ?_)).mono fun w' c' _ hq => ?_
    · obtain ⟨hfree, -, hblocks⟩ := hfocus.2 v hv
      refine hc.statement c hgood hfree (fun x hx => hroots x hx v hv) hblocks
        (fun slot hs => (hbefore slot hs).2 v hv) (fun slot hs => ?_) hnamed
      have := hafter slot hs
      unfold Slot.wait
      split at this
      · simpa [*] using this.2 v hv
      · simpa [*] using this.2 v hv
    · obtain ⟨hfits', hstage⟩ := hq
      refine ⟨fun slot hs => ⟨hfits'.1 slot hs, fun v hv => (hstage v hv).1 slot hs⟩,
        fun slot hs => ?_, hfits'.2.2⟩
      have hslot := hfits'.2.1 slot hs
      have hwait : ∀ v : Stage, w'.2 = ↑v → v.Todo k (slot.wait d) slot.stmt := fun v hv =>
        (hstage v hv).2 slot hs
      unfold Slot.wait at hwait
      by_cases hfresh : slot.fresh
      · rw [if_pos hfresh] at hslot hwait ⊢
        exact ⟨hslot, hwait⟩
      · rw [if_neg hfresh] at hslot hwait ⊢
        exact ⟨hslot, hwait⟩

end Pass

/-! ## The stage before a run -/

/-- Chunks that hold none of what the first `k` passes remove. -/
structure Chunk.Free (k : ℕ) (c : Chunk) : Prop where
  body : Block.Everywhere (StmtKind.Free k) c.body
  nodes : ∀ i, c.Reaches i → (c.arena.get i).Free k
  bodies : ∀ i, c.Reaches i → ∀ body, c.arena.body? i = some body →
    Block.Everywhere (StmtKind.Free k) body

/-- Before a run nothing is finished, and an id is as far from the end as
there are statements in the literals below it. -/
def Stage.start (c : Chunk) (ρ : ExprId → ℚ) : Stage where
  arena := c.arena
  within
    | 0 => ∅
    | d + 1 => {i | c.Reaches i ∧ c.arena.load ρ i ≤ d}

theorem Stage.start_todo {c : Chunk} {ρ : ExprId → ℚ} {m : ℕ} : ∀ {d : ℕ} {s : Stmt},
    m + s.size ≤ d → s.kind.Throughout (StmtKind.Free k) →
    (∀ x ∈ s.kind.ids, c.Reaches x ∧ c.arena.load ρ x ≤ m) → (start c ρ).Todo k d s
  | 0, ⟨kind, line⟩, hd, _, _ => by
    rw [Stmt.size] at hd
    omega
  | d + 1, ⟨kind, line⟩, hd, hfree, hids => by
    rw [Stmt.size] at hd
    refine ⟨hfree.1, fun x hx => ?_, fun b hb t ht => start_todo (m := m) ?_
      (Block.everywhere_iff.1 (hfree.2 b hb) t ht) fun x hx => hids x ?_⟩
    · obtain ⟨hreach, hload⟩ := hids x (StmtKind.mem_ids.2 (.inl hx))
      exact ⟨hreach, by omega⟩
    · have h₁ := Block.size_le_of_mem ht
      have h₂ : Block.size b ≤ kind.size := StmtKind.size_le hb
      omega
    · exact StmtKind.mem_ids.2 (.inr ⟨b, hb, Block.mem_ids_iff.2 ⟨t, ht, hx⟩⟩)

theorem Chunk.Free.start {c : Chunk} {ρ : ExprId → ℚ} (h : c.Free k) (hr : c.arena.Ranked ρ)
    (hinside : ∀ x ∈ Block.ids c.body, x.index < c.arena.size) :
    (Stage.start c ρ).Good k c.arena := by
  have hreach : ∀ i, c.Reaches i → i.index < c.arena.size := by
    rintro i ⟨x, hx, hxi⟩
    exact hr.inside_of_reaches (hinside x hx) hxi
  refine ⟨rfl, ?_, fun d => Set.empty_subset _, ?_⟩
  · rintro (_ | d) x hx
    · exact absurd hx (Set.notMem_empty x)
    · exact hreach x hx.1
  · rintro (_ | d) i hi
    · exact absurd hi (Set.notMem_empty i)
    · obtain ⟨hi, hload⟩ := hi
      refine ⟨h.nodes i hi, fun x hx => ?_, fun func hfunc s hs => ?_⟩
      -- a child is reached and carries less
      · have hrefers := Arena.refers_of_mem_children hx
        have hle := hr.load_add_le hrefers
        exact ⟨hi.trans hrefers, by omega⟩
      -- so does what a statement of a body refers to, and the body itself is counted
      · have hsize : (c.arena.get i).bodySize = Block.size func.body := by
          rw [hfunc]
          exact func.size_eq
        have hbody := h.bodies i hi func.body (Arena.body?_eq_some.2 ⟨func, hfunc, rfl⟩)
        have hmem := Block.size_le_of_mem hs
        have hle := Arena.bodySize_le_load ρ (hreach i hi)
        refine Stage.start_todo (m := d - Block.size func.body) (by omega)
          (Block.everywhere_iff.1 hbody s hs) fun x hx => ?_
        have hrefers : c.arena.Refers i x := by
          unfold Arena.Refers
          rw [hfunc]
          exact List.mem_append_right _ (Block.mem_ids_iff.2 ⟨s, hs, hx⟩)
        have hadd := hr.load_add_le hrefers
        exact ⟨hi.trans hrefers, by omega⟩

/-! ## Runs -/

/-- What a finished id leads to is finished. -/
theorem Stage.Good.finished_of_reaches {w : Stage} {a : Arena} {i j : ExprId} (h : w.Good k a)
    (hi : i ∈ w.within 0) (hij : a.Reaches i j) : j ∈ w.within 0 := by
  induction hij with
  | refl => exact hi
  | @tail j l _ hjl hj =>
    have hnode := h.nodes 0 j hj
    unfold Arena.Refers Expr.refs at hjl
    rcases List.mem_append.1 hjl with hl | hl
    · exact hnode.children l hl
    · split at hl
      · rename_i func hfunc
        obtain ⟨s, hs, hl⟩ := Block.mem_ids_iff.1 hl
        exact (hnode.body func hfunc s hs).2 l hl
      · simp at hl

/-- **A run that does not fail** leaves nothing of what its pass removes. -/
theorem Pass.Cleans.run {σ ε : Type} {r : Pass σ ε} {V : Vocabulary} {R : Prop} (hk : k < 5)
    (hV : V.Stable) (hr : r.Keeps V R) (hc : r.Cleans k) {c : Chunk} (h : c.Sound V R)
    (hfree : c.Free k) (state : σ) (hfailure : (r.run state c).failure = none) :
    (r.run state c).chunk.Free (k + 1) := by
  obtain ⟨rank, hsound⟩ := h.arena
  obtain ⟨B, hB⟩ := exists_bound c.arena rank
  have hfits := h.fits hB
  have hgood := hfree.start hsound.ranked h.inside
  have htodo : ∀ s ∈ c.body, (Stage.start c rank).Todo k (Pass.depth c) s := by
    intro s hs
    refine Stage.start_todo (m := ∑ n ∈ Finset.range c.arena.size, (c.arena.get ⟨n⟩).bodySize) ?_
      (Block.everywhere_iff.1 hfree.body s hs) fun x hx =>
        ⟨⟨x, Block.mem_ids_iff.2 ⟨s, hs, hx⟩, .refl⟩, Arena.load_le _ _ _⟩
    have hsize := Block.size_le_of_mem hs
    have hcount := c.statementCount_eq
    unfold Pass.depth
    omega
  -- the walk runs in ranks and stages together; a stage that is `⊤` stands
  -- for a run that failed
  obtain ⟨⟨w', v⟩, walk', -, hinv, harena, hfail, -, -, hdone⟩ :=
    Pass.Contract.run (K := hc.contract hk hV hr) (w := (⟨c.arena, rank⟩, ↑(Stage.start c rank)))
      (f := B) state ⟨hsound, .coe rfl hgood (by simp [Walk.start])⟩ (fun hR => (h.orderly hR).1)
      fun s hs => ⟨hfits s hs, Pass.unless_coe.2 (htodo s hs)⟩
  induction v using WithTop.recTopCoe with
  | top =>
    have := hinv.2.failed rfl
    rw [hfail, hfailure] at this
    simp at this
  | coe v =>
    obtain ⟨-, hgood', -⟩ := hinv.2.good v rfl
    rw [harena] at hgood'
    have hbody : ∀ s ∈ (r.run state c).chunk.body, v.Todo k 0 s := fun s hs =>
      Pass.unless_coe.1 (hdone s hs).2
    have hreach : ∀ i, (r.run state c).chunk.Reaches i → i ∈ v.within 0 := by
      rintro i ⟨x, hx, hxi⟩
      obtain ⟨s, hs, hx⟩ := Block.mem_ids_iff.1 hx
      exact hgood'.finished_of_reaches ((hbody s hs).2 x hx) hxi
    refine ⟨Block.everywhere_iff.2 fun s hs => (hbody s hs).1, fun i hi =>
      (hgood'.nodes 0 i (hreach i hi)).free, fun i hi body hbody => ?_⟩
    obtain ⟨func, hfunc, rfl⟩ := Arena.body?_eq_some.1 hbody
    exact Block.everywhere_iff.2 fun s hs =>
      ((hgood'.nodes 0 i (hreach i hi)).body func hfunc s hs).1

end LuaSugar
