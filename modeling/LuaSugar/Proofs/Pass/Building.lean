import Mathlib
import LuaSugar.Proofs.Pass.Contract
/-!
# What callbacks build

Callbacks allocate and overwrite nodes, and from world to world that is
all they do to the arena. `Builds` and `Edits` say that a computation
leads from a world to a later one whose arena it leaves, and what holds of
its answer there; the rules below take such a statement apart along the
text of the computation. What a world says of its arena is up to `good`.
-/

namespace LuaSugar

variable {W : Type} [Preorder W] {good : W → Arena → Prop}

/-! ## Building -/

/-- Building leads to a later world, where the answer satisfies `Q`. -/
def Builds (good : W → Arena → Prop) {α : Type} (m : Build α) (Q : W → α → Prop) (w : W)
    (a : Arena) : Prop :=
  ∃ w', w ≤ w' ∧ good w' (m a).2 ∧ Q w' (m a).1

namespace Builds

variable {α β : Type} {w : W} {a : Arena}

/-- Nothing is built. -/
theorem pure {v : α} {Q : W → α → Prop} (h : good w a) (hq : Q w v) :
    Builds good (Pure.pure v) Q w a :=
  ⟨w, le_rfl, h, hq⟩

/-- One thing is built, and the next in what there is then. -/
theorem bind {m : Build α} {f : α → Build β} {Q : W → α → Prop} {R : W → β → Prop}
    (hm : Builds good m Q w a)
    (hf : ∀ w' v a', w ≤ w' → good w' a' → Q w' v → Builds good (f v) R w' a') :
    Builds good (m >>= f) R w a := by
  obtain ⟨w₁, h₁, hgood, hq⟩ := hm
  obtain ⟨w₂, h₂, hgood₂, hr⟩ := hf w₁ _ _ h₁ hgood hq
  exact ⟨w₂, h₁.trans h₂, hgood₂, hr⟩

/-- What was built may be said more weakly. -/
theorem mono {m : Build α} {Q R : W → α → Prop} (hm : Builds good m Q w a)
    (h : ∀ w' v, w ≤ w' → Q w' v → R w' v) : Builds good m R w a := by
  obtain ⟨w₁, h₁, hgood, hq⟩ := hm
  exact ⟨w₁, h₁, hgood, h w₁ _ h₁ hq⟩

/-- The arena that is read is the one to go on with. -/
theorem get {f : Arena → Build α} {Q : W → α → Prop} (hf : Builds good (f a) Q w a) :
    Builds good (MonadState.get >>= f) Q w a :=
  hf

/-- A change of the arena itself, to what is good again. -/
theorem modify {f : Arena → Arena} {w' : W} (h : w ≤ w') (hgood : good w' (f a)) :
    Builds good (MonadState.modifyGet fun a => (PUnit.unit, f a)) (fun _ _ => True) w a :=
  ⟨w', h, hgood, trivial⟩

/-- One node after the other, each in a relation to its item that lasts. -/
theorem mapM_forall₂ {f : α → Build β} {Q : W → α → β → Prop}
    (hQ : ∀ {w w' v b}, w ≤ w' → Q w v b → Q w' v b) :
    ∀ {l : List α} {w : W} {a : Arena}, good w a →
      (∀ w' v a', v ∈ l → w ≤ w' → good w' a' → Builds good (f v) (fun w'' => Q w'' v) w' a') →
      Builds good (l.mapM f) (fun w' bs => List.Forall₂ (Q w') l bs) w a
  | [], w, a, h, _ => pure h .nil
  | v :: l, w, a, h, hf => by
    rw [List.mapM_cons]
    refine bind (hf w v a List.mem_cons_self le_rfl h) fun w₁ b a₁ h₁ hgood₁ hb => ?_
    refine bind (mapM_forall₂ (Q := Q) hQ hgood₁ fun w' v' a' hv hle =>
      hf w' v' a' (List.mem_cons_of_mem _ hv) (h₁.trans hle)) fun w₂ bs a₂ h₂ hgood₂ hbs => ?_
    exact pure hgood₂ (.cons (hQ h₂ hb) hbs)

/-- One node after the other, each of which satisfies what lasts. -/
theorem mapM {f : α → Build β} {Q : W → β → Prop} (hQ : ∀ {w w' b}, w ≤ w' → Q w b → Q w' b)
    {l : List α} {w : W} {a : Arena} (h : good w a)
    (hf : ∀ w' v a', v ∈ l → w ≤ w' → good w' a' → Builds good (f v) Q w' a') :
    Builds good (l.mapM f) (fun w' bs => bs.length = l.length ∧ ∀ b ∈ bs, Q w' b) w a := by
  refine (mapM_forall₂ (Q := fun w _ => Q w) hQ h hf).mono
    fun w' bs _ hbs => ⟨hbs.length_eq.symm, ?_⟩
  exact ((List.forall₂_and_left _ _).1 (hbs.flip.imp fun _ _ hb => ⟨hb, trivial⟩)).1

/-- A fold that keeps an invariant of its accumulator. -/
theorem foldlM {f : β → α → Build β} {I : W → β → Prop} :
    ∀ {l : List α} {start : β} {w : W} {a : Arena}, good w a → I w start →
      (∀ w' acc v a', v ∈ l → w ≤ w' → good w' a' → I w' acc →
        Builds good (f acc v) I w' a') →
      Builds good (l.foldlM f start) I w a
  | [], start, w, a, h, hs, _ => pure h hs
  | v :: l, start, w, a, h, hs, hf => by
    rw [List.foldlM_cons]
    refine bind (hf w start v a List.mem_cons_self le_rfl h hs) fun w₁ acc a₁ h₁ hgood₁ hacc => ?_
    exact foldlM hgood₁ hacc fun w' acc' v' a' hv hle =>
      hf w' acc' v' a' (List.mem_cons_of_mem _ hv) (h₁.trans hle)

/-- A loop of which only the world lasts. -/
theorem forM {f : α → Build PUnit} : ∀ {l : List α} {w : W} {a : Arena}, good w a →
    (∀ w' v a', v ∈ l → w ≤ w' → good w' a' → Builds good (f v) (fun _ _ => True) w' a') →
    Builds good (l.forM f) (fun _ _ => True) w a
  | [], w, a, h, _ => pure h trivial
  | v :: l, w, a, h, hf => by
    refine bind (hf w v a List.mem_cons_self le_rfl h) fun w₁ _ a₁ h₁ hgood₁ _ => ?_
    exact forM hgood₁ fun w' v' a' hv hle => hf w' v' a' (List.mem_cons_of_mem _ hv) (h₁.trans hle)

/-- A loop in which each item may count on what those behind it leave. -/
theorem forM_behind {f : α → Build PUnit} {P : W → α → Prop}
    (hP : ∀ {w w' v}, w ≤ w' → P w v → P w' v) (behind : List α) : ∀ {l : List α} {w : W}
    {a : Arena}, good w a → (∀ u ∈ behind, P w u) →
    (∀ w' l₁ v l₂ a', l = l₁ ++ v :: l₂ → w ≤ w' → good w' a' →
      (∀ u ∈ behind ++ l₁, P w' u) → Builds good (f v) (fun w'' _ => P w'' v) w' a') →
    Builds good (l.forM f) (fun w' _ => ∀ u ∈ behind ++ l, P w' u) w a
  | [], w, a, h, hb, _ => pure h (by simpa using hb)
  | v :: l, w, a, h, hb, hf => by
    refine bind (hf w [] v l a rfl le_rfl h (by simpa using hb)) fun w₁ _ a₁ h₁ hgood₁ hv => ?_
    have hb₁ : ∀ u ∈ behind ++ [v], P w₁ u := by
      intro u hu
      rcases List.mem_append.1 hu with hu | hu
      · exact hP h₁ (hb u hu)
      · rwa [List.mem_singleton.1 hu]
    refine (forM_behind (P := P) hP (behind ++ [v]) hgood₁ hb₁
      fun w' l₁ u l₂ a' hl hle hgood hu => ?_).mono
      fun w' _ _ hall => by simpa using hall
    exact hf w' (v :: l₁) u l₂ a' (by rw [hl]; rfl) (h₁.trans hle) hgood (by simpa using hu)

end Builds

/-! ## Editing -/

section Runs

variable {σ ε α β : Type} {space : Workspace σ}

/-- Reading the arena answers it. -/
theorem Build.run_get (f : Arena → Build α) (a : Arena) : (get >>= f).run a = (f a).run a := rfl

/-- So does an edit that reads it. -/
theorem Edit.run_arena (f : Arena → Edit σ ε α) :
    (Edit.arena >>= f).run space = (f space.arena).run space := rfl

/-- Building within an edit changes the arena, and cannot fail. -/
theorem Edit.run_build (b : Build α) : (Edit.build b : Edit σ ε α).run space =
    (.ok (b.run space.arena).1, { space with arena := (b.run space.arena).2 }) := rfl

/-- Building for each of a list is an edit for each. -/
theorem Edit.build_forM (f : α → Build PUnit) : ∀ l : List α,
    (Edit.build (l.forM f) : Edit σ ε PUnit) = l.forM fun v => Edit.build (f v)
  | [] => rfl
  | v :: l => by
    show _ = Edit.build (f v) >>= fun _ => l.forM fun v => Edit.build (f v)
    rw [← Edit.build_forM f l]
    rfl

/-- Going over some is going over all, and passing over the others. -/
theorem forM_filter {m : Type → Type} [Monad m] [LawfulMonad m] (p : α → Bool) (f : α → m PUnit)
    (l : List α) : (l.filter p).forM f = l.forM fun v => if p v then f v else pure ⟨⟩ := by
  induction l with
  | nil => rfl
  | cons v l ih =>
    rw [List.forM, ← ih]
    cases hv : p v with
    | true => rw [List.filter_cons_of_pos hv, if_pos rfl, List.forM]
    | false => rw [List.filter_cons_of_neg (by simp [hv]), if_neg (by simp), pure_bind]

/-- One edit after another, unless it fails. -/
theorem Edit.run_bind (m : Edit σ ε α) (f : α → Edit σ ε β)
    (space : Workspace σ) : (m >>= f).run space = match m.run space with
      | (.ok v, space') => (f v).run space'
      | (.error e, space') => (.error e, space') := by
  simp only [Bind.bind, ExceptT.bind, ExceptT.mk, ExceptT.run, StateT.bind]
  rcases m space with ⟨r, space'⟩
  cases r <;> rfl

end Runs

/-- An edit leads to a later world, where the answer satisfies `Q` if it
has not failed. -/
def Edits (good : W → Arena → Prop) {σ ε α : Type} (m : Edit σ ε α) (Q : W → α → Prop) (w : W)
    (space : Workspace σ) : Prop :=
  ∃ w', w ≤ w' ∧ good w' (m.run space).2.arena ∧ ∀ v, (m.run space).1 = .ok v → Q w' v

namespace Edits

variable {σ ε α β : Type} {w : W} {space : Workspace σ}

/-- Nothing is edited. -/
theorem pure {v : α} {Q : W → α → Prop} (h : good w space.arena) (hq : Q w v) :
    Edits good (Pure.pure v : Edit σ ε α) Q w space := by
  refine ⟨w, le_rfl, h, fun v' hv => ?_⟩
  obtain rfl := Except.ok.inj hv
  exact hq

/-- A failure leaves what there is, and owes nothing more. -/
theorem throw {e : ε} {Q : W → α → Prop} (h : good w space.arena) :
    Edits good (MonadExcept.throw e : Edit σ ε α) Q w space := by
  refine ⟨w, le_rfl, h, fun v' hv => ?_⟩
  cases hv

/-- One edit, and the next where the first did not fail. -/
theorem bind {m : Edit σ ε α} {f : α → Edit σ ε β} {Q : W → α → Prop} {R : W → β → Prop}
    (hm : Edits good m Q w space)
    (hf : ∀ w' v space', w ≤ w' → good w' space'.arena → Q w' v → Edits good (f v) R w' space') :
    Edits good (m >>= f) R w space := by
  obtain ⟨w₁, h₁, hgood, hq⟩ := hm
  unfold Edits
  rw [Edit.run_bind]
  rcases hm : m.run space with ⟨r, space'⟩
  rw [hm] at hgood hq
  cases r with
  | error e =>
    refine ⟨w₁, h₁, hgood, fun v hv => ?_⟩
    cases hv
  | ok v =>
    obtain ⟨w₂, h₂, hgood₂, hr⟩ := hf w₁ v space' h₁ hgood (hq v rfl)
    exact ⟨w₂, h₁.trans h₂, hgood₂, hr⟩

/-- What an edit leaves may be said more weakly. -/
theorem mono {m : Edit σ ε α} {Q R : W → α → Prop} (hm : Edits good m Q w space)
    (h : ∀ w' v, w ≤ w' → Q w' v → R w' v) : Edits good m R w space := by
  obtain ⟨w₁, h₁, hgood, hq⟩ := hm
  exact ⟨w₁, h₁, hgood, fun v hv => h w₁ v h₁ (hq v hv)⟩

/-- The arena that a callback reads is the one it goes on with. -/
theorem arena {f : Arena → Edit σ ε α} {Q : W → α → Prop}
    (hf : Edits good (f space.arena) Q w space) : Edits good (Edit.arena >>= f) Q w space :=
  hf

/-- Reading the state of a pass edits nothing. -/
theorem state (h : good w space.arena) :
    Edits good (Edit.state : Edit σ ε σ) (fun _ _ => True) w space :=
  ⟨w, le_rfl, h, fun _ _ => trivial⟩

/-- Writing it leaves the chunk alone. -/
theorem setState {s : σ} (h : good w space.arena) :
    Edits good (Edit.setState s : Edit σ ε Unit) (fun _ _ => True) w space :=
  ⟨w, le_rfl, h, fun _ _ => trivial⟩

/-- Building within an edit. -/
theorem build {m : Build α} {Q : W → α → Prop} (h : Builds good m Q w space.arena) :
    Edits good (Edit.build m : Edit σ ε α) Q w space := by
  obtain ⟨w₁, h₁, hgood, hq⟩ := h
  refine ⟨w₁, h₁, hgood, fun v hv => ?_⟩
  obtain rfl := Except.ok.inj hv
  exact hq

/-- A node is overwritten, by one that keeps the arena good. -/
theorem replace {id : ExprId} {e : Expr} {w' : W} (h : w ≤ w')
    (hgood : good w' (space.arena.set id e)) :
    Edits good (Edit.replace id e : Edit σ ε Unit) (fun _ _ => True) w space :=
  ⟨w', h, hgood, fun _ _ => trivial⟩

/-- A loop of which only the world lasts. -/
theorem forM {f : α → Edit σ ε PUnit} : ∀ {l : List α} {w : W} {space : Workspace σ},
    good w space.arena →
    (∀ w' v space', v ∈ l → w ≤ w' → good w' space'.arena →
      Edits good (f v) (fun _ _ => True) w' space') →
    Edits good (l.forM f) (fun _ _ => True) w space
  | [], w, space, h, _ => pure h trivial
  | v :: l, w, space, h, hf => by
    refine bind (hf w v space List.mem_cons_self le_rfl h) fun w₁ _ space₁ h₁ hgood₁ _ => ?_
    exact forM hgood₁ fun w' v' space' hv hle =>
      hf w' v' space' (List.mem_cons_of_mem _ hv) (h₁.trans hle)

/-- A loop in which each item may count on what those behind it leave. -/
theorem forM_behind {f : α → Edit σ ε PUnit} {P : W → α → Prop}
    (hP : ∀ {w w' v}, w ≤ w' → P w v → P w' v) (behind : List α) : ∀ {l : List α} {w : W}
    {space : Workspace σ}, good w space.arena → (∀ u ∈ behind, P w u) →
    (∀ w' l₁ v l₂ space', l = l₁ ++ v :: l₂ → w ≤ w' → good w' space'.arena →
      (∀ u ∈ behind ++ l₁, P w' u) → Edits good (f v) (fun w'' _ => P w'' v) w' space') →
    Edits good (l.forM f) (fun w' _ => ∀ u ∈ behind ++ l, P w' u) w space
  | [], w, space, h, hb, _ => pure h (by simpa using hb)
  | v :: l, w, space, h, hb, hf => by
    refine bind (hf w [] v l space rfl le_rfl h (by simpa using hb))
      fun w₁ _ space₁ h₁ hgood₁ hv => ?_
    have hb₁ : ∀ u ∈ behind ++ [v], P w₁ u := by
      intro u hu
      rcases List.mem_append.1 hu with hu | hu
      · exact hP h₁ (hb u hu)
      · rwa [List.mem_singleton.1 hu]
    refine (forM_behind (P := P) hP (behind ++ [v]) hgood₁ hb₁
      fun w' l₁ u l₂ space' hl hle hgood hu => ?_).mono fun w' _ _ hall => by simpa using hall
    exact hf w' (v :: l₁) u l₂ space' (by rw [hl]; rfl) (h₁.trans hle) hgood (by simpa using hu)

end Edits

/-! ## Callbacks -/

/-- A slot of a list is behind the focus, the focus or ahead of it. -/
theorem Cursor.mem_slots {c : Cursor} {slot : Slot} :
    slot ∈ c.slots ↔ slot ∈ c.before ∨ slot = c.focus ∨ slot ∈ c.after := by
  simp [Cursor.slots]

/-- The slots of a cursor are those up to the focus and those ahead. -/
theorem Cursor.forall_slots {c : Cursor} {P : Slot → Prop} : (∀ slot ∈ c.slots, P slot) ↔
    (∀ slot ∈ c.focus :: c.before, P slot) ∧ ∀ slot ∈ c.after, P slot := by
  simp only [mem_slots, List.mem_cons, or_imp, forall_and, forall_eq]
  tauto

namespace Pass

variable {σ ε α : Type}

/-- **A call of a callback**, spelled out: none after a failure, and one that
fails leaves its failure and what `left` says of the space. -/
theorem call_eq (edit : Edit σ ε α) (default : α) (left : Workspace σ → α) (walk : Walk σ ε) :
    call edit default left walk =
      if walk.failure.isSome then (default, walk)
      else match edit.run walk.space with
        | (.ok value, space) => (value, { walk with space })
        | (.error e, space) => (left walk.space, { walk with space, failure := some e }) := by
  simp only [call, bind, StateT.bind, get, getThe, MonadStateOf.get, StateT.get, pure]
  by_cases hf : walk.failure.isSome
  · simp only [hf, if_true]
    rfl
  · simp only [hf, Bool.false_eq_true, if_false]
    simp only [StateT.run]
    rcases edit.run walk.space with ⟨r, space⟩
    cases r <;> rfl

/-- The same where a failing callback leaves the default. -/
theorem attempt_eq (edit : Edit σ ε α) (default : α) (walk : Walk σ ε) :
    attempt edit default walk =
      if walk.failure.isSome then (default, walk)
      else match edit.run walk.space with
        | (.ok value, space) => (value, { walk with space })
        | (.error e, space) => (default, { walk with space, failure := some e }) :=
  call_eq edit default (fun _ => default) walk

/-- A callback on a statement that fails has done nothing to the list. -/
def FailsFirst (r : Pass σ ε) : Prop := ∀ c space, r.left c space = c

/-- A callback that fails before it edits is tried at the list it was given. -/
theorem FailsFirst.visit {r : Pass σ ε} (h : r.FailsFirst) (c : Cursor) :
    r.visit c = attempt (r.statement c) c := by
  have hleft : r.left c = fun _ => c := funext (h c)
  rw [Pass.visit, hleft]
  rfl

/-- **A callback** leads where its edit leads; after a failure, and in its
place, the default is as good. -/
theorem Leads.attempt {edit : Edit σ ε α} {default : α} {Q : W → α → Prop} {w : W}
    {walk : Walk σ ε} (h : good w walk.space.arena) (he : Edits good edit Q w walk.space)
    (hd : ∀ w', w ≤ w' → Q w' default) :
    Leads (fun w (walk : Walk σ ε) => good w walk.space.arena) (Pass.attempt edit default) Q w
      walk := by
  obtain ⟨w₁, h₁, hgood, hq⟩ := he
  unfold Leads
  rw [attempt_eq]
  by_cases hf : walk.failure.isSome
  · rw [if_pos hf]
    exact ⟨w, le_rfl, h, hd w le_rfl⟩
  · rw [if_neg hf]
    rcases hedit : edit.run walk.space with ⟨r, space⟩
    rw [hedit] at hgood hq
    cases r with
    | ok value => exact ⟨w₁, h₁, hgood, hq value rfl⟩
    | error e => exact ⟨w₁, h₁, hgood, hd w₁ h₁⟩

end Pass

end LuaSugar
