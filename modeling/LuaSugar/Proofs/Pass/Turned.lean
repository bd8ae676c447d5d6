import Mathlib
import LuaSugar.Proofs.Pass.Sound
import LuaSugar.Proofs.Pass.Turns
/-!
# The walk turns every list

A pass is **ruled** if each of its callbacks builds nodes, fails or not, and
otherwise does with its cursor what the rule says. Then the walk of a list
turns it by the rule, to whatever depth its literals go, and a run of the
pass turns the body of the chunk and every literal that it reaches.
-/

namespace LuaSugar

open Progress

variable {σ ε : Type} {rule : Rule}

namespace Progress

/-- What a callback finds and leaves: progress in which it has nothing but
nodes to add. -/
structure Beside (rule : Rule) (v w : Progress) (a : Arena) : Prop where
  arena : a = w.arena
  good : w.Good rule
  seen : w.seen = v.seen
  walked : w.walked = v.walked
  failed : w.failed = v.failed

/-- **A new node**, as deep as what it is made of. -/
theorem Beside.alloc (hlasts : rule.Lasts) {v w : Progress} {a : Arena} (h : Beside rule v w a)
    {e : Expr} {n : ℕ} (hchildren : ∀ j ∈ e.children, w.Near n j)
    (hbody : ∀ func, e = .atom (.func func) → ∀ s ∈ func.body, w.Todo n s) :
    Builds (Beside rule v) (Build.alloc e) (fun w' i => w'.Node i e ∧ w'.Near n i) w a := by
  obtain ⟨w', hle, hgood, harena, hseen, hwalked, hfailed, hnode, hlevel⟩ :=
    h.good.alloc hlasts (fun j hj => (hchildren j hj).inside) (fun j hj => (hchildren j hj).level)
      hbody
  obtain rfl := h.arena
  exact ⟨w', hle, ⟨harena.symm, hgood, hseen.trans h.seen, hwalked.trans h.walked,
    hfailed.trans h.failed⟩, hnode, hnode.inside, hlevel.le⟩

/-- A new node that is no literal. -/
theorem Beside.plain (hlasts : rule.Lasts) {v w : Progress} {a : Arena} (h : Beside rule v w a)
    {e : Expr} {n : ℕ} (he : ∀ func, e ≠ .atom (.func func)) (hchildren : ∀ j ∈ e.children, w.Near n j) :
    Builds (Beside rule v) (Build.alloc e) (fun w' i => w'.Node i e ∧ w'.Near n i) w a :=
  h.alloc hlasts hchildren fun func hfunc => absurd hfunc (he func)

theorem Beside.name (hlasts : rule.Lasts) {v w : Progress} {a : Arena} (h : Beside rule v w a)
    (text : String) : Builds (Beside rule v) (Build.name text)
      (fun w' i => w'.Node i (.ofName text) ∧ w'.Near 0 i) w a :=
  h.plain hlasts (by simp [Expr.ofName]) (by simp [Expr.ofName, Expr.children])

theorem Beside.text (hlasts : rule.Lasts) {v w : Progress} {a : Arena} (h : Beside rule v w a)
    (text : String) : Builds (Beside rule v) (Build.text text)
      (fun w' i => w'.Node i (.ofText text) ∧ w'.Near 0 i) w a :=
  h.plain hlasts (by simp [Expr.ofText]) (by simp [Expr.ofText, Expr.children])

/-- What a callback does with its cursor: the focus and what it inserted
before it stand for the statement. -/
structure Leaves (rule : Rule) (d : ℕ) (c : Cursor) (w : Progress) (c' : Cursor) : Prop where
  acts : ∃ made : List Slot, c'.focus :: c'.before = made.reverse ++ c.before ∧
    rule w c.stmt c.after (made.map Slot.stmt) c'.after
  awaits : ∀ slot ∈ c'.after, w.Awaits d slot
  count : (c'.after.countP fun slot => !slot.fresh) ≤ c.after.countP fun slot => !slot.fresh

/-- The walk at some progress, while the literals in `O` are under way. -/
structure At (rule : Rule) (O : Set ExprId) (w : Progress) (walk : Walk σ ε) : Prop where
  arena : walk.space.arena = w.arena
  good : w.Good rule
  failed : w.failed ↔ walk.failure.isSome
  seen : ∀ x, x ∈ w.seen ↔ x ∈ walk.seen
  inside : ∀ x ∈ O, x ∈ w.seen
  walked : ∀ x, x ∈ w.walked ↔ x ∈ w.seen ∧ x ∉ O
  goesOn : walk.exhausted = false

namespace At

variable {O : Set ExprId} {w : Progress} {walk : Walk σ ε} {x : ExprId}

/-- **A literal gets under way**, without its body. -/
theorem take (hlasts : rule.Lasts) (h : At rule O w walk) (hx : x ∉ w.seen) :
    ∃ w', w ≤ w' ∧ At rule (insert x O) w' { walk with
      seen := x :: walk.seen
      space := { walk.space with arena := walk.space.arena.setBody x [] } } := by
  obtain ⟨w', hle, hgood, harena, hseen, hwalked, hfailed, -⟩ := h.good.take hlasts hx
  refine ⟨w', hle, ⟨h.arena ▸ harena.symm, hgood, hfailed ▸ h.failed, fun y => ?_, ?_, fun y => ?_,
    h.goesOn⟩⟩
  · rw [hseen, List.mem_cons, Set.mem_insert_iff, h.seen]
  · rw [hseen]
    exact fun y hy => hy.imp_right (h.inside y)
  · rw [hwalked, hseen, h.walked, Set.mem_insert_iff, Set.mem_insert_iff, not_or]
    constructor
    · rintro ⟨hy, hO⟩
      exact ⟨.inr hy, fun hyx => hx (hyx ▸ hy), hO⟩
    · rintro ⟨rfl | hy, hyx, hO⟩
      · exact absurd rfl hyx
      · exact ⟨hy, hO⟩

/-- **And is through**, with what became of its body. -/
theorem put (hlasts : rule.Lasts) (h : At rule (insert x O) w walk) (hx : x ∉ O)
    (hfunc : w.arena.body? x ≠ none) {origin body : Block} (horigin : w.origin x = origin)
    (hturns : w.Turns rule (Block.slots origin) body) :
    ∃ w', w ≤ w' ∧ At rule O w' { walk with
      space := { walk.space with arena := walk.space.arena.setBody x body } } ∧ x ∈ w'.seen := by
  have hxseen : x ∈ w.seen := h.inside x (Set.mem_insert x O)
  have hxwalked : x ∉ w.walked := fun hw => ((h.walked x).1 hw).2 (Set.mem_insert x O)
  obtain ⟨w', hle, hgood, harena, hseen, hwalked, hfailed⟩ :=
    h.good.put hlasts hxseen hxwalked hfunc horigin hturns
  refine ⟨w', hle, ⟨?_, hgood, hfailed ▸ h.failed, ?_, ?_, fun y => ?_, h.goesOn⟩, hseen ▸ hxseen⟩
  · rw [harena, ← h.arena]
  · rw [hseen]
    exact h.seen
  · rw [hseen]
    exact fun y hy => h.inside y (.inr hy)
  · rw [hwalked, hseen, Set.mem_insert_iff, h.walked, Set.mem_insert_iff, not_or]
    constructor
    · rintro (rfl | ⟨hy, -, hO⟩)
      · exact ⟨hxseen, hx⟩
      · exact ⟨hy, hO⟩
    · rintro ⟨hy, hO⟩
      exact (em (y = x)).imp_right fun hyx => ⟨hy, hyx, hO⟩

end At

end Progress

/-- The callbacks of a pass follow a rule. -/
structure Ruled (f : Cursor → Edit σ ε Cursor) (rule : Rule) : Prop where
  lasts : rule.Lasts
  statement : ∀ {v w : Progress} {d} (c : Cursor) {space : Workspace σ},
    Beside rule v w space.arena → (∀ x ∈ c.stmt.kind.roots, w.Near d x) →
    (∀ slot ∈ c.after, w.Awaits d slot) →
    Edits (Beside rule v) (f c) (Leaves rule d c) w space

namespace Ruled

open Pass

variable {f : Cursor → Edit σ ε Cursor} {O : Set ExprId} {w : Progress} {walk : Walk σ ε} {d : ℕ}
variable {enter : Block → StateM (Walk σ ε) Block}

/-- **A callback** does what the rule says, unless something has failed. -/
theorem attempt (hf : Ruled f rule) (c : Cursor) (h : At rule O w walk)
    (hroots : ∀ x ∈ c.stmt.kind.roots, w.Near d x)
    (hafter : ∀ slot ∈ c.after, w.Awaits d slot) :
    Leads (At rule O) (Pass.attempt (f c) c) (Leaves rule.Acts d c) w walk := by
  -- without a change, where that counts as what the rule says
  have stays {w' : Progress} (hle : w ≤ w') (hfailed : w'.failed) : Leaves rule.Acts d c w' c :=
    ⟨⟨[c.focus], rfl, .inr ⟨hfailed, rfl, rfl⟩⟩, fun slot hs => (hafter slot hs).mono hle,
      le_rfl⟩
  unfold Leads
  rw [attempt_eq]
  by_cases hfailed : walk.failure.isSome
  · rw [if_pos hfailed]
    exact ⟨w, le_rfl, h, stays le_rfl (h.failed.2 hfailed)⟩
  · rw [if_neg hfailed]
    have hbeside : Beside rule w w walk.space.arena := ⟨h.arena, h.good, rfl, rfl, rfl⟩
    obtain ⟨w₁, hle₁, ⟨harena, hgood, hseen, hwalked, hfailed₁⟩, hleaves⟩ :=
      hf.statement c hbeside hroots hafter
    rcases hedit : (f c).run walk.space with ⟨r, space⟩
    rw [hedit] at harena hleaves
    cases r with
    | ok c' =>
      obtain ⟨⟨made, hmade, hacts⟩, htodo, hcount⟩ := hleaves c' rfl
      refine ⟨w₁, hle₁, ⟨harena, hgood, hfailed₁ ▸ h.failed, hseen ▸ h.seen, hseen ▸ h.inside, ?_,
          h.goesOn⟩,
        ⟨made, hmade, .inl hacts⟩, htodo, hcount⟩
      rw [hseen, hwalked]
      exact h.walked
    | error e =>
      obtain ⟨w₂, hle₂, hgood₂, harena₂, hseen₂, hwalked₂, hfailed₂⟩ := hgood.fail hf.lasts
      refine ⟨w₂, hle₁.trans hle₂, ⟨harena.trans harena₂.symm, hgood₂, ?_, ?_, ?_, ?_, h.goesOn⟩,
        stays (hle₁.trans hle₂) hfailed₂⟩
      · simp [hfailed₂]
      · rw [hseen₂, hseen]
        exact h.seen
      · rw [hseen₂, hseen]
        exact h.inside
      · rw [hseen₂, hwalked₂, hseen, hwalked]
        exact h.walked

/-- The walk of lists turns those that it is deep enough for. -/
def Enters (rule : Rule) (enter : Block → StateM (Walk σ ε) Block) (d : ℕ) : Prop :=
  ∀ {O : Set ExprId} {w : Progress} {walk : Walk σ ε} {block : Block}, At rule O w walk →
    (∀ s ∈ block, w.Todo d s) →
    Leads (At rule O) (enter block) (fun w' out => w'.Turns rule (Block.slots block) out) w walk

/-- **A literal** is walked once, and by the rule. -/
theorem walkLiteral (hf : Ruled f rule) (he : Enters rule enter d) {x : ExprId}
    (h : At rule O w walk) (hx : w.Near d x) :
    Leads (At rule O) (Pass.walkLiteral enter x)
      (fun w' _ => w'.arena.body? x ≠ none → x ∈ w'.seen) w walk := by
  unfold Leads
  rw [Contract.walkLiteral_eq, h.arena]
  cases hbody : w.arena.body? x with
  | none => exact ⟨w, le_rfl, h, fun hsome => absurd hbody hsome⟩
  | some body =>
    by_cases hseen : x ∈ walk.seen
    · simp only [hseen, if_true]
      exact ⟨w, le_rfl, h, fun _ => (h.seen x).2 hseen⟩
    · simp only [hseen, if_false]
      have hunseen : x ∉ w.seen := fun hx => hseen ((h.seen x).1 hx)
      obtain ⟨rfl, htodo⟩ := h.good.unseen x body hunseen hbody
      obtain ⟨w₁, hle₁, hat₁⟩ := h.take hf.lasts hunseen
      rw [h.arena] at hat₁
      obtain ⟨w₂, hle₂, hat₂, hturns⟩ := he hat₁ fun s hs =>
        ((htodo s hs).deeper hx.level).mono hle₁
      have hle : w ≤ w₂ := hle₁.trans hle₂
      have hfunc : w₂.arena.body? x ≠ none := fun hnone => by
        have := Arena.body?_of_hollow (hle.hollow x hx.inside).symm hnone
        simp [hbody] at this
      obtain ⟨w₃, hle₃, hat₃, hseen₃⟩ := hat₂.put hf.lasts (fun hO => hunseen (h.inside x hO)) hfunc
        (hle.origin x hx.inside) hturns
      exact ⟨w₃, hle.trans hle₃, hat₃, fun _ => hseen₃⟩

/-- **A root** is visited with all below it. -/
theorem walkRoot (hf : Ruled f rule) (he : Enters rule enter d) (owner : Stmt) {x : ExprId}
    (h : At rule O w walk) (hx : w.Near d x) :
    Leads (At rule O) ((ofStatement f).walkRoot enter owner x) (fun w' _ => x ∈ w'.visited) w
      walk := by
  have hnear : ∀ y ∈ w.arena.descendants x, w.Near d y := fun y hy =>
    have hy := h.good.layered.descendants_inside hx.inside hy
    ⟨hy.1, hy.2.trans hx.level⟩
  have hloop : Leads (At rule O) ((walk.space.arena.descendants x).forM (Pass.walkLiteral enter))
      (fun w' _ => ∀ y ∈ walk.space.arena.descendants x, y.index < w'.arena.size ∧
        (w'.arena.body? y ≠ none → y ∈ w'.seen)) w walk := by
    refine Leads.forM (fun hle hy => ⟨hy.1.trans_le hle.size, mem_seen_mono hle hy.1 hy.2⟩) h
      fun w' y walk' hy hle hat => ?_
    rw [h.arena] at hy
    refine (hf.walkLiteral he hat ((hnear y hy).mono hle)).mono fun w'' _ hle' hseen => ?_
    exact ⟨((hnear y hy).mono (hle.trans hle')).inside, hseen⟩
  change Leads (At rule O) ((walk.space.arena.descendants x).forM (Pass.walkLiteral enter) >>=
    fun _ => Pass.attempt ((ofStatement f).expression x owner) ())
    (fun w' _ => x ∈ w'.visited) w walk
  refine hloop.bind fun w₁ _ walk₁ hle₁ hat₁ hseen => ?_
  rw [h.arena] at hseen
  -- children below the root are what they were before the literals were walked
  obtain ⟨w₂, hle₂, hgood₂, harena₂, hseen₂, hwalked₂, hfailed₂, hvisited⟩ :=
    hat₁.good.visit hf.lasts (D := {y | y ∈ w.arena.descendants x}) fun y hy =>
      ⟨(hseen y hy).1, fun j hj => h.good.layered.children_mem_descendants hy j
        (Arena.children_of_hollow (hle₁.hollow y (hnear y hy).inside) ▸ hj), (hseen y hy).2⟩
  have hidle : Pass.attempt ((ofStatement f).expression x owner) () walk₁ = ((), walk₁) := by
    rw [attempt_eq]
    split <;> rfl
  refine ⟨w₂, hle₂, ?_, hvisited (w.arena.self_mem_descendants x)⟩
  rw [hidle]
  refine ⟨hat₁.arena.trans harena₂.symm, hgood₂, hfailed₂ ▸ hat₁.failed, hseen₂ ▸ hat₁.seen,
    hseen₂ ▸ hat₁.inside, ?_, hat₁.goesOn⟩
  rw [hseen₂, hwalked₂]
  exact hat₁.walked

/-- **Before the callback** the nested lists are turned, and the roots have
been visited. -/
theorem inner (hf : Ruled f rule) (he : Enters rule enter d) {s : Stmt} (h : At rule O w walk)
    (hs : w.Todo (d + 1) s) :
    Leads (At rule O) ((ofStatement f).inner enter s) (fun w' s' => s'.line = s.line ∧
      s'.kind.hollow = s.kind.hollow ∧
      List.Forall₂ (fun b b' => w'.Turns rule (Block.slots b) b') s.kind.blocks s'.kind.blocks ∧
      ∀ x ∈ s'.kind.roots, w'.Near d x ∧ x ∈ w'.visited) w walk := by
  have heach : Leads.Each (At rule O) enter (fun w b => ∀ t ∈ b, w.Todo d t)
      fun w b b' => w.Turns rule (Block.slots b) b' :=
    ⟨fun hat hb => he hat hb, fun hle hb t ht => (hb t ht).mono hle, fun hle ht =>
      ht.mono hf.lasts hle⟩
  refine (Leads.mapBlocks heach s.kind h hs.2).bind fun w₁ kind walk₁ hle₁ hat₁ hinner => ?_
  obtain ⟨hhollow, hblocks⟩ := hinner
  have hroots : kind.roots = s.kind.roots := by
    rw [← StmtKind.roots_hollow, hhollow, StmtKind.roots_hollow]
  have hnear : ∀ x ∈ kind.roots, w₁.Near d x := fun x hx => (hs.1 x (hroots ▸ hx)).mono hle₁
  refine (Leads.forM (Q := fun w' x => x ∈ w'.visited)
    (fun hle hx => Before.visited hle hx) hat₁ fun w' x walk' hx hle hat =>
      hf.walkRoot he _ hat ((hnear x hx).mono hle)).bind
    fun w₂ _ walk₂ hle₂ hat₂ hvisited => Leads.pure hat₂ ⟨rfl, hhollow, ?_, fun x hx => ?_⟩
  · exact hblocks.imp fun _ _ hturns => hturns.mono hf.lasts hle₂
  · exact ⟨(hnear x hx).mono hle₂, hvisited x hx⟩

/-- **A list by slots**: what is behind stays, and what is ahead is turned. -/
theorem walkSlots (hf : Ruled f rule) (he : Enters rule enter d) : ∀ (visits : ℕ)
    (behind ahead : List Slot) {w : Progress} {walk : Walk σ ε}, At rule O w walk →
    (∀ slot ∈ ahead, w.Awaits d slot) →
    (ahead.countP fun slot => !slot.fresh) ≤ visits →
    Leads (At rule O) ((ofStatement f).walkSlots enter visits behind ahead) (fun w' slots =>
      ∃ out, slots.map Slot.stmt = (behind.map Slot.stmt).reverse ++ out ∧ w'.Turns rule ahead out)
      w walk := by
  -- where only statements are left that were put there, nothing is visited
  have hskip {visits : ℕ} {behind ahead : List Slot} {w : Progress} {walk : Walk σ ε}
      (h : At rule O w walk) (hfresh : ∀ slot ∈ ahead, slot.fresh) :
      Leads (At rule O) ((ofStatement f).walkSlots enter visits behind ahead) (fun w' slots =>
        ∃ out, slots.map Slot.stmt = (behind.map Slot.stmt).reverse ++ out ∧
          w'.Turns rule ahead out) w walk := by
    rw [walkSlots_skip hfresh]
    refine Leads.pure h ⟨ahead.map Slot.stmt, by simp, ?_⟩
    simpa using Turns.skip hfresh (show w.Turns rule [] [] from .nil)
  intro visits behind ahead w walk h htodo hcount
  induction visits generalizing behind ahead w walk with
  | zero => exact hskip h (by simpa [List.countP_eq_zero] using Nat.le_zero.1 hcount)
  | succ visits ih =>
    rcases ahead_cases ahead with hfresh | ⟨skipped, s, after, rfl, hfresh⟩
    · exact hskip h hfresh
    have hrest : ∀ slot ∈ after, w.Awaits d slot := fun slot hs => htodo slot (by simp [hs])
    rw [walkSlots_visit hfresh]
    -- what is inside the statement first, then the statement by the rule
    refine (hf.inner he h (htodo ⟨s, false⟩ (by simp))).bind fun w₁ s' walk₁ hle₁ hat₁ hs' => ?_
    obtain ⟨hline, hhollow, hblocks, hroots⟩ := hs'
    have hsame : s'.kind.roots = s.kind.roots := by
      rw [← StmtKind.roots_hollow, hhollow, StmtKind.roots_hollow]
    refine (hf.attempt ⟨_, ⟨s', false⟩, after⟩ hat₁ (fun x hx => (hroots x hx).1)
      fun slot hs => (hrest slot hs).mono hle₁).bind fun w₂ c walk₂ hle₂ hat₂ hmoved => ?_
    obtain ⟨⟨made, hmade, hacts⟩, hafter, hle⟩ := hmoved
    rw [countP_ahead hfresh] at hcount
    -- the callback leaves no more to visit than it was given
    refine (ih (c.focus :: c.before) c.after hat₂ hafter
      (hle.trans (Nat.le_of_succ_le_succ hcount))).mono ?_
    rintro w₃ slots hle₃ ⟨out, hslots, hturns⟩
    refine ⟨skipped.map Slot.stmt ++ (made.map Slot.stmt ++ out), ?_, Turns.skip hfresh ?_⟩
    · rw [hslots, hmade]
      simp
    · refine .visited hline hhollow (fun p hp => ?_) (fun x hx => ?_)
        (hf.lasts.acts.mono hle₃ hacts) hturns
      · exact ((List.forall₂_iff_zip.1 hblocks).2 hp).mono hf.lasts (hle₂.trans hle₃)
      · exact hle₃.visited (hle₂.visited (hroots x (hsame ▸ hx)).2)

/-- **The walk of a list** turns it. -/
theorem walkBlock (hf : Ruled f rule) : ∀ d : ℕ, Enters rule ((ofStatement f).walkBlock d) d
  | 0, O, w, walk, block, h, htodo => by
    cases block with
    | nil =>
      rw [Pass.walkBlock]
      exact ⟨w, le_rfl, (passOver_nil walk).symm ▸ h, .nil⟩
    | cons s rest => exact (htodo s List.mem_cons_self).elim
  | d + 1, O, w, walk, block, h, htodo => by
    rw [Pass.walkBlock]
    refine (hf.walkSlots (hf.walkBlock d) block.length [] (Block.slots block) h ?_ ?_).bind
      fun w₁ slots walk₁ _ hat₁ hout => ?_
    · intro slot hslot
      obtain ⟨s, hs, rfl⟩ := List.mem_map.1 hslot
      exact htodo s hs
    · exact List.countP_le_length.trans (by simp [Block.slots])
    · obtain ⟨out, hslots, hturns⟩ := hout
      rw [List.map_nil, List.reverse_nil, List.nil_append] at hslots
      exact Leads.pure hat₁ (hslots ▸ hturns)

end Ruled

/-! ## Runs -/

namespace Progress

variable {c : Chunk} {ρ : ExprId → ℚ}

/-- Before a run nothing was seen, and an id is as many lists deep as there
are statements in the literals below it. -/
noncomputable def start (c : Chunk) (ρ : ExprId → ℚ) : Progress where
  arena := c.arena
  level := c.arena.load ρ
  origin i := (c.arena.body? i).getD []
  seen := ∅
  walked := ∅
  visited := ∅
  failed := False

theorem start_todo {m d : ℕ} {s : Stmt} (hd : m + s.size ≤ d)
    (hids : ∀ x ∈ s.kind.ids, x.index < c.arena.size ∧ c.arena.load ρ x ≤ m) :
    (start c ρ).Todo d s := by
  refine Stmt.deep_induction (μ := c.arena.load ρ) (m := m)
    (P := fun d s => (∀ x ∈ s.kind.ids, x.index < c.arena.size) → (start c ρ).Todo d s)
    (fun d s hroots hblocks hinside => ?_) hd (fun x hx => (hids x hx).2) fun x hx => (hids x hx).1
  refine ⟨fun x hx => ⟨hinside x (StmtKind.mem_ids.2 (.inl hx)), hroots x hx⟩, fun b hb t ht =>
    hblocks b hb t ht fun x hx => hinside x ?_⟩
  exact StmtKind.mem_ids.2 (.inr ⟨b, hb, Block.mem_ids_iff.2 ⟨t, ht, hx⟩⟩)

/-- A walk of a chunk is deep enough for its body. -/
theorem start_todo_of_mem (hinside : ∀ x ∈ Block.ids c.body, x.index < c.arena.size) {s : Stmt}
    (hs : s ∈ c.body) : (start c ρ).Todo (Pass.depth c) s := by
  refine start_todo (m := ∑ n ∈ Finset.range c.arena.size, (c.arena.get ⟨n⟩).bodySize) ?_
    fun x hx => ⟨hinside x (Block.mem_ids_iff.2 ⟨s, hs, hx⟩), Arena.load_le _ _ _⟩
  have hsize := Block.size_le_of_mem hs
  have hcount := c.statementCount_eq
  unfold Pass.depth
  omega

theorem start_good (hr : c.arena.Ranked ρ) : (start c ρ).Good rule := by
  refine ⟨⟨fun i j hj => hr.inside i j (Arena.refers_of_mem_children hj), fun i j hj => ?_,
    c.arena.height ρ, c.arena.height_le ρ, fun i j hj =>
      hr.graded i j (Arena.refers_of_mem_children hj)⟩, fun i body _ hbody => ?_, ?_, ?_⟩
  · exact (Nat.le_add_right _ _).trans (hr.load_add_le (Arena.refers_of_mem_children hj))
  · have hbody : c.arena.body? i = some body := hbody
    refine ⟨by simp [start, hbody], fun s hs => ?_⟩
    obtain ⟨func, hfunc, rfl⟩ := Arena.body?_eq_some.1 hbody
    have hsize : (c.arena.get i).bodySize = Block.size func.body := by
      rw [hfunc]
      exact func.size_eq
    have hload := Arena.bodySize_le_load ρ (Arena.inside_of_body? hbody)
    have hmem := Block.size_le_of_mem hs
    refine start_todo (m := c.arena.load ρ i - Block.size func.body) ?_ fun x hx => ?_
    · show _ ≤ c.arena.load ρ i
      omega
    · have hrefers : c.arena.Refers i x := by
        unfold Arena.Refers
        rw [hfunc]
        exact List.mem_append_right _ (Block.mem_ids_iff.2 ⟨s, hs, hx⟩)
      have hadd := hr.load_add_le hrefers
      exact ⟨hr.inside i x hrefers, by omega⟩
  · exact fun i hi => absurd hi (Set.notMem_empty i)
  · exact fun i hi => absurd hi (Set.notMem_empty i)

/-- What a run that has not failed leaves of a chunk: every literal that was
seen has been walked. -/
structure Run (rule : Rule) (c c' : Chunk) (w : Progress) : Prop where
  good : w.Good rule
  arena : w.arena = c'.arena
  size : c.arena.size ≤ w.arena.size
  hollow : ∀ i : ExprId, i.index < c.arena.size →
    (w.arena.get i).hollow = (c.arena.get i).hollow
  origin : ∀ i body, c.arena.body? i = some body → w.origin i = body
  walked : w.seen ⊆ w.walked
  succeeded : ¬ w.failed
  body : w.Turns rule (Block.slots c.body) c'.body

end Progress

namespace Progress

variable {c c' : Chunk} {w : Progress}

/-- Nodes that were there before a run have their children afterwards. -/
theorem Run.mem_children (hw : Run rule c c' w) {i j : ExprId}
    (hj : j ∈ (c.arena.get i).children) : j ∈ (w.arena.get i).children := by
  have hi := Arena.inside_of_refers (Arena.refers_of_mem_children hj)
  rwa [Arena.children_of_hollow (hw.hollow i hi)]

/-- **Below a root that was visited** every literal has been turned. -/
theorem Run.literal (hw : Run rule c c' w) {x y : ExprId} {b : Block} (hx : x ∈ w.visited)
    (hy : y ∈ c.arena.descendants x) (hbody : c.arena.body? y = some b) :
    ∃ b', c'.arena.body? y = some b' ∧ w.Turns rule (Block.slots b) b' := by
  have hvisited : y ∈ w.visited :=
    Arena.mem_of_mem_descendants (fun i hi j hj => (hw.good.visited i hi).2.1 j (hw.mem_children hj))
      hx hy
  have hsome : w.arena.body? y ≠ none := fun hnone => by
    have := Arena.body?_of_hollow (hw.hollow y (Arena.inside_of_body? hbody)).symm hnone
    simp [hbody] at this
  obtain ⟨-, b', hb', hturns⟩ :=
    hw.good.walked y (hw.walked ((hw.good.visited y hvisited).2.2 hsome))
  rw [hw.origin y b hbody] at hturns
  exact ⟨b', hw.arena ▸ hb', hturns⟩

end Progress

/-- A run leads from where it starts to some progress, with its body turned. -/
theorem Ruled.leads {f : Cursor → Edit σ ε Cursor} (hf : Ruled f rule) {c : Chunk} {ρ : ExprId → ℚ}
    (hr : c.arena.Ranked ρ) (hinside : ∀ x ∈ Block.ids c.body, x.index < c.arena.size) (state : σ) :
    Pass.Leads (At rule ∅) ((Pass.ofStatement f).walkBlock (Pass.depth c) c.body)
      (fun w out => w.Turns rule (Block.slots c.body) out) (start c ρ)
      (.start ⟨c.arena, state⟩ : Walk σ ε) := by
  refine hf.walkBlock (Pass.depth c) ?_ fun s hs => start_todo_of_mem hinside hs
  exact ⟨rfl, start_good hr, by simp [start, Walk.start], by simp [start, Walk.start], by simp,
    by simp [start], rfl⟩

/-- **A run of a ruled pass** is not exhausted. -/
theorem Ruled.ends {f : Cursor → Edit σ ε Cursor} (hf : Ruled f rule) {c : Chunk} {ρ : ExprId → ℚ}
    (hr : c.arena.Ranked ρ) (hinside : ∀ x ∈ Block.ids c.body, x.index < c.arena.size) (state : σ) :
    ((Pass.ofStatement f).run state c).exhausted = false := by
  obtain ⟨_, -, hat, -⟩ := hf.leads hr hinside state
  exact hat.goesOn

/-- **A run that does not fail** turns the body of its chunk, and every
literal that it comes to. -/
theorem Ruled.run {f : Cursor → Edit σ ε Cursor} (hf : Ruled f rule) {c : Chunk} {ρ : ExprId → ℚ}
    (hr : c.arena.Ranked ρ) (hinside : ∀ x ∈ Block.ids c.body, x.index < c.arena.size) (state : σ)
    (hfailure : ((Pass.ofStatement f).run state c).failure = none) :
    ∃ w, Run rule c ((Pass.ofStatement f).run state c).chunk w := by
  obtain ⟨w, hle, hat, hturns⟩ := hf.leads hr hinside state
  have hfailed : ¬ w.failed := by
    rw [hat.failed]
    have : (((Pass.ofStatement f).walkBlock (Pass.depth c) c.body)
      (.start ⟨c.arena, state⟩ : Walk σ ε)).2.failure = none := hfailure
    simp [this]
  refine ⟨w, hat.good, hat.arena.symm, hle.size, hle.hollow, fun i body hbody => ?_, fun x hx =>
    (hat.walked x).2 ⟨hx, Set.notMem_empty x⟩, hfailed, hturns⟩
  rw [hle.origin i (Arena.inside_of_body? hbody)]
  simp [start, hbody]

end LuaSugar
