import Mathlib
import LuaSugar.Pass
import LuaSugar.Proofs.Syntax.Nested
/-!
# What a pass keeps while it walks

A walk is the same for every pass, so what a pass keeps is proved once for
the walk and, for each pass, only of its callbacks. A `Contract` says what
holds of the chunk between callbacks, relative to a **world**: a record of
what has become of the chunk so far. Worlds grow along the walk, and what
holds of a statement or an id in a world holds in every later one, which
is what lets the walk go on elsewhere and come back.

The bodies under way are out of the arena. A contract therefore speaks of
the arena without them, and of each list under way by the conditions on
its statements: `todo` before the visit, `half` once the nested lists are
done, `done` after it. What a list may hold is relative to a **frame**,
the place it has in the chunk; a statement may give its nested lists
another one. In what order its statements may stand is its **shape**,
which does not look into nested lists.
-/

namespace LuaSugar

namespace Pass

variable {σ ε α β : Type} {W : Type} [Preorder W]

/-! ## Turns in a list -/

section Turns

/-- What comes before the callback on a statement: the lists nested in it,
and its roots. -/
def inner (r : Pass σ ε) (enter : Block → StateM (Walk σ ε) Block) (s : Stmt) :
    StateM (Walk σ ε) Stmt := do
  let kind ← s.kind.mapBlocksM enter
  let s := { s with kind }
  s.kind.roots.forM (r.walkRoot enter s)
  pure s

/-- What is ahead in a list: inserted statements alone, or in front of one
that is to be visited. -/
theorem ahead_cases (ahead : List Slot) : (∀ slot ∈ ahead, slot.fresh) ∨
    ∃ skipped s after, ahead = skipped ++ ⟨s, false⟩ :: after ∧ ∀ slot ∈ skipped, slot.fresh := by
  induction ahead with
  | nil => exact .inl (by simp)
  | cons slot ahead ih =>
    obtain ⟨s, fresh⟩ := slot
    cases fresh with
    | false => exact .inr ⟨[], s, ahead, rfl, by simp⟩
    | true =>
      rcases ih with h | ⟨skipped, s', after, rfl, h⟩
      · exact .inl (List.forall_mem_cons.2 ⟨rfl, h⟩)
      · exact .inr ⟨⟨s, true⟩ :: skipped, s', after, rfl, List.forall_mem_cons.2 ⟨rfl, h⟩⟩

variable {skipped after : List Slot} {s : Stmt}

theorem countP_ahead (h : ∀ slot ∈ skipped, slot.fresh) :
    ((skipped ++ ⟨s, false⟩ :: after).countP fun slot => !slot.fresh) =
      (after.countP fun slot => !slot.fresh) + 1 := by
  have hskipped : (skipped.countP fun slot => !slot.fresh) = 0 := by
    simpa [List.countP_eq_zero] using h
  rw [List.countP_append, List.countP_cons_of_pos (by simp), hskipped, Nat.zero_add]

variable {r : Pass σ ε} {enter : Block → StateM (Walk σ ε) Block}

/-- Inserted statements are passed over. -/
theorem walkSlots_skip (h : ∀ slot ∈ skipped, slot.fresh) (visits : ℕ) (behind : List Slot) :
    r.walkSlots enter visits behind skipped = Pure.pure (behind.reverse ++ skipped) := by
  cases visits with
  | zero => rfl
  | succ visits =>
    have hdrop : skipped.dropWhile Slot.fresh = [] := List.dropWhile_eq_nil_iff.2 h
    rw [Pass.walkSlots, hdrop, List.takeWhile_eq_self_iff.2 h]
    simp

/-- **A turn of the walk in a list**: what is nested in the statement, and
the callback on it. -/
theorem walkSlots_visit (h : ∀ slot ∈ skipped, slot.fresh) (visits : ℕ) (behind : List Slot) :
    r.walkSlots enter (visits + 1) behind (skipped ++ ⟨s, false⟩ :: after) = (do
      let s ← r.inner enter s
      let cursor : Cursor := ⟨skipped.reverse ++ behind, ⟨s, false⟩, after⟩
      let cursor ← r.visit cursor
      r.walkSlots enter visits (cursor.focus :: cursor.before) cursor.after) := by
  have hdrop : (skipped ++ ⟨s, false⟩ :: after).dropWhile Slot.fresh = ⟨s, false⟩ :: after := by
    rw [List.dropWhile_append_of_pos h, List.dropWhile_cons_of_neg (by simp)]
  have htake : (skipped ++ ⟨s, false⟩ :: after).takeWhile Slot.fresh = skipped := by
    rw [List.takeWhile_append_of_pos h, List.takeWhile_cons_of_neg (by simp), List.append_nil]
  rw [Pass.walkSlots, hdrop, htake]
  rfl

/-- An empty list is passed over without a trace. -/
theorem passOver_nil (walk : Walk σ ε) : passOver [] walk = ([], walk) := by
  show (([] : Block), { walk with exhausted := walk.exhausted || false }) = _
  rw [Bool.or_false]

/-- Any other list exhausts the walk. -/
theorem passOver_cons (s : Stmt) (rest : Block) (walk : Walk σ ε) :
    passOver (s :: rest) walk = (s :: rest, { walk with exhausted := true }) := by
  show (s :: rest, { walk with exhausted := walk.exhausted || true }) = _
  rw [Bool.or_true]

end Turns

/-! ## Leading to later worlds -/

/-- Running `m` leads to a later world, where its answer satisfies `Q`. -/
def Leads (inv : W → Walk σ ε → Prop) (m : StateM (Walk σ ε) α) (Q : W → α → Prop) (w : W)
    (walk : Walk σ ε) : Prop :=
  ∃ w', w ≤ w' ∧ inv w' (m walk).2 ∧ Q w' (m walk).1

namespace Leads

variable {inv : W → Walk σ ε → Prop} {w : W} {walk : Walk σ ε}

theorem pure {a : α} {Q : W → α → Prop} (h : inv w walk) (hq : Q w a) :
    Leads inv (Pure.pure a) Q w walk :=
  ⟨w, le_rfl, h, hq⟩

theorem bind {m : StateM (Walk σ ε) α} {f : α → StateM (Walk σ ε) β} {Q : W → α → Prop}
    {R : W → β → Prop} (hm : Leads inv m Q w walk)
    (hf : ∀ w' a walk', w ≤ w' → inv w' walk' → Q w' a → Leads inv (f a) R w' walk') :
    Leads inv (m >>= f) R w walk := by
  obtain ⟨w₁, h₁, hinv, hq⟩ := hm
  obtain ⟨w₂, h₂, hinv₂, hr⟩ := hf w₁ _ _ h₁ hinv hq
  exact ⟨w₂, h₁.trans h₂, hinv₂, hr⟩

theorem mono {m : StateM (Walk σ ε) α} {Q R : W → α → Prop} (hm : Leads inv m Q w walk)
    (h : ∀ w' a, w ≤ w' → Q w' a → R w' a) : Leads inv m R w walk := by
  obtain ⟨w₁, h₁, hinv, hq⟩ := hm
  exact ⟨w₁, h₁, hinv, h w₁ _ h₁ hq⟩

/-- A loop over a list, whose items each leave something that lasts. -/
theorem forM {l : List α} {f : α → StateM (Walk σ ε) PUnit} {Q : W → α → Prop}
    (hQ : ∀ {w w' a}, w ≤ w' → Q w a → Q w' a) (h : inv w walk)
    (hf : ∀ w' a walk', a ∈ l → w ≤ w' → inv w' walk' →
      Leads inv (f a) (fun w'' _ => Q w'' a) w' walk') :
    Leads inv (l.forM f) (fun w' _ => ∀ a ∈ l, Q w' a) w walk := by
  induction l generalizing w walk with
  | nil => exact ⟨w, le_rfl, h, by simp⟩
  | cons a l ih =>
    refine bind (hf w a walk (by simp) le_rfl h) fun w₁ _ walk₁ h₁ hinv₁ ha => ?_
    refine mono (ih hinv₁ fun w' b walk' hb hle => hf w' b walk' (by simp [hb]) (h₁.trans hle)) ?_
    intro w₂ _ h₂ hl b hb
    rcases List.mem_cons.1 hb with rfl | hb
    · exact hQ h₂ ha
    · exact hl b hb

/-! ## Nested lists -/

/-- A walk of lists takes each list with `T` to one that is in `R` to it,
and both last. -/
structure Each (inv : W → Walk σ ε → Prop) (enter : Block → StateM (Walk σ ε) Block)
    (T : W → Block → Prop) (R : W → Block → Block → Prop) : Prop where
  enter : ∀ {w walk b}, inv w walk → T w b → Leads inv (enter b) (fun w' b' => R w' b b') w walk
  before : ∀ {w w' b}, w ≤ w' → T w b → T w' b
  after : ∀ {w w' b b'}, w ≤ w' → R w b b' → R w' b b'

section Nested

variable {enter : Block → StateM (Walk σ ε) Block} {T : W → Block → Prop}
variable {R : W → Block → Block → Prop}

/-- One list after the other. -/
theorem mapM (he : Each inv enter T R) : ∀ (bs : List Block) {w : W} {walk : Walk σ ε}, inv w walk →
    (∀ b ∈ bs, T w b) →
    Leads inv (bs.mapM enter) (fun w' bs' => List.Forall₂ (R w') bs bs') w walk
  | [], w, walk, h, _ => pure h .nil
  | b :: bs, w, walk, h, hb => by
    rw [List.forall_mem_cons] at hb
    rw [List.mapM_cons]
    refine bind (he.enter h hb.1) fun w₁ b' walk₁ h₁ hinv₁ hdone => ?_
    refine bind (mapM he bs hinv₁ fun b hm => he.before h₁ (hb.2 b hm))
      fun w₂ bs' walk₂ h₂ hinv₂ hrest => ?_
    exact pure hinv₂ (.cons (he.after h₂ hdone) hrest)

/-- The lists of a statement, and nothing else of it. -/
theorem mapBlocks (he : Each inv enter T R) (kind : StmtKind) (h : inv w walk)
    (hb : ∀ b ∈ kind.blocks, T w b) :
    Leads inv (kind.mapBlocksM enter) (fun w' kind' => kind'.hollow = kind.hollow ∧
      List.Forall₂ (R w') kind.blocks kind'.blocks) w walk := by
  rw [StmtKind.mapBlocksM_eq, map_eq_pure_bind]
  refine bind (mapM he kind.blocks h hb) fun w₁ bs walk₁ _ hinv₁ hbs => pure hinv₁ ?_
  rw [StmtKind.blocks_putBlocks kind hbs.length_eq.symm]
  exact ⟨kind.hollow_putBlocks bs, hbs⟩

end Nested

end Leads

/-- What a pass keeps: conditions on walks, statements and ids in a world,
and what each callback has to do for them. -/
structure Contract (r : Pass σ ε) (W : Type) [Preorder W] (F : Type) where
  /-- The state of the walk between callbacks. -/
  inv : W → Walk σ ε → Prop
  /-- A statement to be visited, with nested lists to that depth. -/
  todo : W → ℕ → F → Stmt → Prop
  /-- A statement whose nested lists were visited. -/
  half : W → ℕ → F → Stmt → Prop
  /-- A statement after the visit, or inserted. -/
  done : W → F → Stmt → Prop
  rootTodo : W → ℕ → F → ExprId → Prop
  rootDone : W → F → ExprId → Prop
  /-- A node below a root. -/
  below : W → ℕ → F → ExprId → Prop
  /-- A node that, if it is a function literal, has had its visit. -/
  seen : W → ExprId → Prop
  /-- The frame of the lists of a statement. -/
  within : F → StmtKind → F
  /-- What a list keeps as a whole. -/
  shape : List Stmt → Prop
  todo_mono : ∀ {w w' d f s}, w ≤ w' → todo w d f s → todo w' d f s
  half_mono : ∀ {w w' d f s}, w ≤ w' → half w d f s → half w' d f s
  done_mono : ∀ {w w' f s}, w ≤ w' → done w f s → done w' f s
  rootDone_mono : ∀ {w w' f x}, w ≤ w' → rootDone w f x → rootDone w' f x
  below_mono : ∀ {w w' d f x}, w ≤ w' → below w d f x → below w' d f x
  seen_mono : ∀ {w w' x}, w ≤ w' → seen w x → seen w' x
  shape_of_hollow : ∀ {l l' : List Stmt},
    l'.map (fun s => s.kind.hollow) = l.map (fun s => s.kind.hollow) → shape l → shape l'
  /-- Where a walk is exhausted, what it passes over counts as done. -/
  exhausted : ∀ {w walk f s}, inv w walk → todo w 0 f s →
    done w f s ∧ inv w { walk with exhausted := true }
  nested : ∀ {w d f s b}, todo w (d + 1) f s → b ∈ s.kind.blocks →
    shape b ∧ ∀ t ∈ b, todo w d (within f s.kind) t
  half_of_nested : ∀ {w d f s s'}, todo w (d + 1) f s → s'.kind.hollow = s.kind.hollow →
    s'.line = s.line →
    (∀ b ∈ s'.kind.blocks, shape b ∧ ∀ t ∈ b, done w (within f s.kind) t) → half w d f s'
  root : ∀ {w d f s x}, half w d f s → x ∈ s.kind.roots → rootTodo w d f x
  below_of_root : ∀ {w walk d f x y}, inv w walk → rootTodo w d f x →
    y ∈ walk.space.arena.descendants x → below w d f y
  seen_of_inv : ∀ {w walk d f x}, inv w walk → below w d f x →
    x ∈ walk.seen ∨ walk.space.arena.body? x = none → seen w x
  /-- The body of a function literal is taken out for its visit and put
  back after it. -/
  literal : ∀ {w walk d f x body}, inv w walk → below w d f x → x ∉ walk.seen →
    walk.space.arena.body? x = some body →
    ∃ w' f', w ≤ w' ∧
      inv w' { walk with
        seen := x :: walk.seen
        space := { walk.space with arena := walk.space.arena.setBody x [] } } ∧
      (shape body ∧ ∀ s ∈ body, todo w' d f' s) ∧
      ∀ w₁ walk₁ body₁, w' ≤ w₁ → inv w₁ walk₁ → shape body₁ ∧ (∀ s ∈ body₁, done w₁ f' s) →
        ∃ w₂, w₁ ≤ w₂ ∧ seen w₂ x ∧
          inv w₂ { walk₁ with
            space := { walk₁.space with arena := walk₁.space.arena.setBody x body₁ } }
  expression : ∀ {w₀ w walk₀ walk d f x} (owner : Stmt), w₀ ≤ w → inv w₀ walk₀ →
    rootTodo w₀ d f x → inv w walk →
    (∀ y ∈ walk₀.space.arena.descendants x, seen w y) →
    Leads inv (attempt (r.expression x owner) ()) (fun w' _ => rootDone w' f x) w walk
  statement : ∀ {w walk d f} (c : Cursor), inv w walk → half w d f c.focus.stmt →
    (∀ x ∈ c.focus.stmt.kind.roots, rootDone w f x) →
    (∀ slot ∈ c.before, done w f slot.stmt) →
    (∀ slot ∈ c.after, if slot.fresh then done w f slot.stmt else todo w (d + 1) f slot.stmt) →
    shape (c.slots.map Slot.stmt) →
    Leads inv (r.visit c) (fun w' c' =>
      (∀ slot ∈ c'.focus :: c'.before, done w' f slot.stmt) ∧
      (∀ slot ∈ c'.after,
        if slot.fresh then done w' f slot.stmt else todo w' (d + 1) f slot.stmt) ∧
      shape (c'.slots.map Slot.stmt) ∧
      (c'.after.countP fun slot => !slot.fresh) ≤ c.after.countP fun slot => !slot.fresh) w walk

namespace Contract

variable {r : Pass σ ε} {F : Type} (K : Contract r W F)
variable {w : W} {walk : Walk σ ε} {d : ℕ} {f : F}

/-- A slot before its turn: an inserted statement is done, the others are
to be visited. -/
def Waiting (w : W) (d : ℕ) (f : F) (slot : Slot) : Prop :=
  if slot.fresh then K.done w f slot.stmt else K.todo w d f slot.stmt

theorem waiting_mono {w w' : W} (h : w ≤ w') {slot : Slot} (hs : K.Waiting w d f slot) :
    K.Waiting w' d f slot := by
  unfold Waiting at *
  by_cases hf : slot.fresh
  · rw [if_pos hf] at hs ⊢
    exact K.done_mono h hs
  · rw [if_neg hf] at hs ⊢
    exact K.todo_mono h hs

/-- The contract holds of a walk of lists, at a depth. -/
def Enters (enter : Block → StateM (Walk σ ε) Block) (d : ℕ) : Prop :=
  ∀ {w walk f block}, K.inv w walk → (K.shape block ∧ ∀ s ∈ block, K.todo w d f s) →
    Leads K.inv (enter block) (fun w' block' => K.shape block' ∧ ∀ s ∈ block', K.done w' f s) w walk

variable {K} {enter : Block → StateM (Walk σ ε) Block}

/-! ## Nested lists -/

/-- **Visiting the nested lists** changes nothing else of a statement. -/
theorem mapBlocks (he : K.Enters enter d) (kind : StmtKind) (h : K.inv w walk)
    (hb : ∀ b ∈ kind.blocks, K.shape b ∧ ∀ s ∈ b, K.todo w d f s) :
    Leads K.inv (kind.mapBlocksM enter) (fun w' kind' => kind'.hollow = kind.hollow ∧
      ∀ b ∈ kind'.blocks, K.shape b ∧ ∀ s ∈ b, K.done w' f s) w walk := by
  have each : Leads.Each K.inv enter (fun w b => K.shape b ∧ ∀ s ∈ b, K.todo w d f s)
      fun w _ b => K.shape b ∧ ∀ s ∈ b, K.done w f s :=
    ⟨he, fun hle hb => ⟨hb.1, fun s hs => K.todo_mono hle (hb.2 s hs)⟩,
      fun hle hb => ⟨hb.1, fun s hs => K.done_mono hle (hb.2 s hs)⟩⟩
  refine (Leads.mapBlocks each kind h hb).mono ?_
  rintro w' kind' - ⟨hhollow, hblocks⟩
  exact ⟨hhollow, ((List.forall₂_and_left _ _).1 (hblocks.flip.imp fun _ _ hb => ⟨hb, trivial⟩)).1⟩

/-! ## Roots -/

/-- A visit of a function literal, as one function of the walk. -/
theorem walkLiteral_eq (enter : Block → StateM (Walk σ ε) Block) (x : ExprId)
    (walk : Walk σ ε) : Pass.walkLiteral enter x walk =
      match walk.space.arena.body? x with
      | none => ((), walk)
      | some body =>
        if x ∈ walk.seen then ((), walk)
        else
          let left := enter body { walk with
            seen := x :: walk.seen
            space := { walk.space with arena := walk.space.arena.setBody x [] } }
          ((), { left.2 with
            space := { left.2.space with arena := left.2.space.arena.setBody x left.1 } }) := by
  simp only [Pass.walkLiteral, bind, StateT.bind, get, getThe, MonadStateOf.get, StateT.get, pure]
  cases walk.space.arena.body? x with
  | none => rfl
  | some body =>
    by_cases hseen : x ∈ walk.seen
    · simp only [hseen, if_true]
      rfl
    · simp only [hseen, if_false]
      rfl

theorem walkLiteral (he : K.Enters enter d) {x : ExprId} (h : K.inv w walk)
    (hx : K.below w d f x) :
    Leads K.inv (Pass.walkLiteral enter x) (fun w' _ => K.seen w' x) w walk := by
  unfold Leads
  rw [walkLiteral_eq]
  cases hbody : walk.space.arena.body? x with
  | none => exact ⟨w, le_rfl, h, K.seen_of_inv h hx (.inr hbody)⟩
  | some body =>
    by_cases hseen : x ∈ walk.seen
    · simp only [hseen, if_true]
      exact ⟨w, le_rfl, h, K.seen_of_inv h hx (.inl hseen)⟩
    · simp only [hseen, if_false]
      obtain ⟨w₁, f', h₁, hinv₁, htodo, hback⟩ := K.literal h hx hseen hbody
      obtain ⟨w₂, h₂, hinv₂, hdone⟩ := he hinv₁ htodo
      obtain ⟨w₃, h₃, hx₃, hinv₃⟩ := hback w₂ _ _ h₂ hinv₂ hdone
      exact ⟨w₃, h₁.trans (h₂.trans h₃), hinv₃, hx₃⟩

theorem walkRoot (he : K.Enters enter d) (owner : Stmt) {x : ExprId} (h : K.inv w walk)
    (hx : K.rootTodo w d f x) :
    Leads K.inv (r.walkRoot enter owner x) (fun w' _ => K.rootDone w' f x) w walk := by
  have hloop : Leads K.inv ((walk.space.arena.descendants x).forM (Pass.walkLiteral enter))
      (fun w' _ => ∀ y ∈ walk.space.arena.descendants x, K.seen w' y) w walk :=
    Leads.forM K.seen_mono h fun w' y walk' hy hle hinv =>
      walkLiteral he hinv (K.below_mono hle (K.below_of_root h hx hy))
  change Leads K.inv ((walk.space.arena.descendants x).forM (Pass.walkLiteral enter) >>= fun _ =>
    attempt (r.expression x owner) ()) (fun w' _ => K.rootDone w' f x) w walk
  exact Leads.bind hloop fun w₁ _ walk₁ h₁ hinv₁ hseen => K.expression owner h₁ h hx hinv₁ hseen

/-! ## Lists -/

/-- **Before the callback** a statement is half done, and its roots are. -/
theorem inner (he : K.Enters enter d) {s : Stmt} (h : K.inv w walk) (hs : K.todo w (d + 1) f s) :
    Leads K.inv (r.inner enter s) (fun w' s' => K.half w' d f s' ∧ s'.kind.hollow = s.kind.hollow ∧
      ∀ x ∈ s'.kind.roots, K.rootDone w' f x) w walk := by
  refine Leads.bind (mapBlocks he s.kind h fun b hb => K.nested hs hb)
    fun w₁ kind walk₁ h₁ hinv₁ hkind => ?_
  have hhalf : K.half w₁ d f { s with kind } :=
    K.half_of_nested (K.todo_mono h₁ hs) hkind.1 rfl hkind.2
  refine Leads.bind (Leads.forM (Q := fun w' x => K.rootDone w' f x) K.rootDone_mono hinv₁
    fun w' x walk' hx hle hinv => walkRoot he _ hinv (K.root (K.half_mono hle hhalf) hx))
    fun w₂ _ walk₂ h₂ hinv₂ hroots => ?_
  exact Leads.pure hinv₂ ⟨K.half_mono h₂ hhalf, hkind.1, hroots⟩

theorem done_of_fresh {slot : Slot} (hfresh : slot.fresh) (hs : K.Waiting w d f slot) :
    K.done w f slot.stmt := by
  rwa [Waiting, if_pos hfresh] at hs

/-- Where nothing is left to visit, all is done. -/
theorem walkSlots_done {visits : ℕ} {behind ahead : List Slot} (h : K.inv w walk)
    (hbehind : ∀ slot ∈ behind, K.done w f slot.stmt)
    (hahead : ∀ slot ∈ ahead, K.Waiting w (d + 1) f slot)
    (hshape : K.shape ((behind.reverse ++ ahead).map Slot.stmt))
    (hfresh : ∀ slot ∈ ahead, slot.fresh) :
    Leads K.inv (r.walkSlots enter visits behind ahead) (fun w' slots =>
      K.shape (slots.map Slot.stmt) ∧ ∀ slot ∈ slots, K.done w' f slot.stmt) w walk := by
  rw [walkSlots_skip hfresh]
  refine Leads.pure h ⟨hshape, fun slot hslot => ?_⟩
  rcases List.mem_append.1 hslot with hs | hs
  · exact hbehind slot (List.mem_reverse.1 hs)
  · exact done_of_fresh (hfresh slot hs) (hahead slot hs)

/-- **Visiting a list by slots.** What is behind is done, what is ahead
waits, and there are visits for all that wait. -/
theorem walkSlots (he : K.Enters enter d) : ∀ (visits : ℕ) (behind ahead : List Slot) {w : W}
    {walk : Walk σ ε}, K.inv w walk → (∀ slot ∈ behind, K.done w f slot.stmt) →
    (∀ slot ∈ ahead, K.Waiting w (d + 1) f slot) →
    K.shape ((behind.reverse ++ ahead).map Slot.stmt) →
    (ahead.countP fun slot => !slot.fresh) ≤ visits →
    Leads K.inv (r.walkSlots enter visits behind ahead) (fun w' slots =>
      K.shape (slots.map Slot.stmt) ∧ ∀ slot ∈ slots, K.done w' f slot.stmt) w walk := by
  intro visits behind ahead w walk h hbehind hahead hshape hcount
  induction visits generalizing behind ahead w walk with
  | zero =>
    have hfresh : ∀ slot ∈ ahead, slot.fresh := by
      simpa [List.countP_eq_zero] using Nat.le_zero.1 hcount
    exact walkSlots_done h hbehind hahead hshape hfresh
  | succ visits ih =>
    rcases ahead_cases ahead with hfresh | ⟨skipped, s, after, rfl, hfresh⟩
    · exact walkSlots_done h hbehind hahead hshape hfresh
    · rw [walkSlots_visit hfresh]
      have hskipped : ∀ slot ∈ skipped.reverse ++ behind, K.done w f slot.stmt := by
        intro slot hslot
        rcases List.mem_append.1 hslot with hs | hs
        · have hs := List.mem_reverse.1 hs
          exact done_of_fresh (hfresh slot hs) (hahead slot (List.mem_append_left _ hs))
        · exact hbehind slot hs
      have hslot : K.todo w (d + 1) f s := by
        simpa [Waiting] using hahead ⟨s, false⟩ (by simp)
      refine Leads.bind (inner he h hslot) fun w₁ s' walk₁ h₁ hinv₁ hs' => ?_
      obtain ⟨hhalf, hhollow, hroots⟩ := hs'
      -- the shape looks at the visited statement from outside only
      refine Leads.bind (K.statement ⟨_, ⟨s', false⟩, after⟩ hinv₁ hhalf hroots
        (fun slot hs => K.done_mono h₁ (hskipped slot hs))
        (fun slot hs => K.waiting_mono h₁ (hahead slot (by simp [hs])))
        (K.shape_of_hollow (by simp [Cursor.slots, hhollow]) hshape))
        fun w₂ c walk₂ h₂ hinv₂ hc => ?_
      obtain ⟨hdone, hwaiting, hshape₂, hle⟩ := hc
      rw [countP_ahead hfresh] at hcount
      exact ih _ _ hinv₂ hdone hwaiting (by simpa [Cursor.slots] using hshape₂)
        (hle.trans (Nat.le_of_succ_le_succ hcount))

/-- **The walk keeps a contract**: it leaves every statement of a list
done. -/
theorem walkBlock : ∀ depth : ℕ, K.Enters (r.walkBlock depth) depth
  | 0, w, walk, f, block, h, htodo => by
    refine ⟨w, le_rfl, ?_, htodo.1, fun s hs => (K.exhausted h (htodo.2 s hs)).1⟩
    cases block with
    | nil => rwa [Pass.walkBlock, passOver_nil]
    | cons s rest =>
      rw [Pass.walkBlock, passOver_cons]
      exact (K.exhausted h (htodo.2 s List.mem_cons_self)).2
  | depth + 1, w, walk, f, block, h, htodo => by
    rw [Pass.walkBlock]
    refine Leads.bind (walkSlots (f := f) (walkBlock depth) _ _ _ h (by simp) ?_ ?_ ?_)
      fun w₁ slots walk₁ _ hinv₁ hdone => ?_
    · intro slot hslot
      obtain ⟨s, hs, rfl⟩ := List.mem_map.1 hslot
      exact htodo.2 s hs
    · simpa [Function.comp_def] using htodo.1
    · exact (List.countP_le_length).trans (by simp)
    · refine Leads.pure hinv₁ ⟨hdone.1, fun s hs => ?_⟩
      obtain ⟨slot, hslot, rfl⟩ := List.mem_map.1 hs
      exact hdone.2 slot hslot

/-- A run of a pass leads from a world that the contract holds in to one
that it holds in as well, with every statement done. -/
theorem run (state : σ) {c : Chunk} (h : K.inv w (.start ⟨c.arena, state⟩))
    (hshape : K.shape c.body) (htodo : ∀ s ∈ c.body, K.todo w (depth c) f s) :
    ∃ w' walk', w ≤ w' ∧ K.inv w' walk' ∧ walk'.space.arena = (r.run state c).chunk.arena ∧
      walk'.failure = (r.run state c).failure ∧ walk'.exhausted = (r.run state c).exhausted ∧
      K.shape (r.run state c).chunk.body ∧ ∀ s ∈ (r.run state c).chunk.body, K.done w' f s := by
  obtain ⟨w', hle, hinv, hdone⟩ := walkBlock (K := K) (depth c) h ⟨hshape, htodo⟩
  exact ⟨w', _, hle, hinv, rfl, rfl, rfl, hdone⟩

end Contract

end Pass

end LuaSugar
