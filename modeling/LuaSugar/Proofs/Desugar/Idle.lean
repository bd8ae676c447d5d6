import Mathlib
import LuaSugar.Proofs.Desugar.Plain
/-!
# Desugaring plain chunks

A pass has nothing to do on a plain chunk, and a walk on which no callback
does anything gives back what it was given: it takes out the body of each
literal and puts the same back. All that it leaves is which literals it
has seen. Neither ranks nor depths matter here, and a chunk need not even
be sound.

So desugaring is idempotent: it reaches plain chunks, and keeps them.
-/

namespace LuaSugar

/-- Plain ids: they lead to plain ids, and to no sugar. -/
structure Arena.PlainOn (a : Arena) (P : Set ExprId) : Prop where
  nodes : ∀ i ∈ P, (a.get i).isSugar = false
  refers : ∀ i ∈ P, ∀ j, a.Refers i j → j ∈ P
  bodies : ∀ i ∈ P, ∀ body, a.body? i = some body →
    Block.Everywhere (fun kind => kind.isSugar = false) body

/-- A plain statement that leads to plain ids. -/
structure StmtKind.PlainOn (P : Set ExprId) (kind : StmtKind) : Prop where
  throughout : kind.Throughout fun kind => kind.isSugar = false
  ids : ∀ x ∈ kind.ids, x ∈ P

/-- Statements of a nested list are plain with the one that holds it. -/
theorem StmtKind.PlainOn.nested {P : Set ExprId} {kind : StmtKind} (h : kind.PlainOn P) {b : Block}
    (hb : b ∈ kind.blocks) : ∀ t ∈ b, t.kind.PlainOn P := fun t ht =>
  ⟨Block.everywhere_iff.1 (h.throughout.2 b hb) t ht, fun x hx =>
    h.ids x (StmtKind.mem_ids.2 (.inr ⟨b, hb, Block.mem_ids_iff.2 ⟨t, ht, hx⟩⟩))⟩

namespace Arena

variable {a : Arena} {P : Set ExprId} {i x : ExprId}

/-- Statements of a plain function literal's body are plain. -/
theorem PlainOn.body {body : Block} (h : a.PlainOn P) (hx : x ∈ P)
    (hbody : a.body? x = some body) :
    ∀ s ∈ body, s.kind.PlainOn P := by
  refine fun s hs => ⟨Block.everywhere_iff.1 (h.bodies x hx body hbody) s hs, fun y hy =>
    h.refers x hx y ?_⟩
  obtain ⟨func, hfunc, rfl⟩ := body?_eq_some.1 hbody
  unfold Refers
  rw [hfunc]
  exact List.mem_append_right _ (Block.mem_ids_iff.2 ⟨s, hs, hy⟩)

/-- What is below a plain id is among those that are. -/
theorem PlainOn.mem_of_mem_descendants (h : a.PlainOn P) (hx : x ∈ P)
    (hi : i ∈ a.descendants x) : i ∈ P :=
  Arena.mem_of_mem_descendants (fun j hj _ hc => h.refers j hj _ (refers_of_mem_children hc)) hx hi

/-- A literal stays plain without its body. -/
theorem PlainOn.setBody_nil (h : a.PlainOn P) (x : ExprId) : (a.setBody x []).PlainOn P := by
  unfold Arena.setBody
  split
  · rename_i func hfunc
    -- only the literal changes, and an emptied body holds nothing
    have hget (j : ExprId) : (a.set x (.atom (.func { func with body := [] }))).get j = a.get j ∨
        (a.set x (.atom (.func { func with body := [] }))).get j =
          .atom (.func { func with body := [] }) :=
      (get_set_cases a x j _).imp_right fun hj => hj.2
    refine ⟨fun j hj => ?_, fun j hj l hl => ?_, fun j hj body hbody => ?_⟩
    · rcases hget j with hj' | hj'
      · rw [hj']
        exact h.nodes j hj
      · rw [hj']
        rfl
    · unfold Refers at hl
      rcases hget j with hj' | hj'
      · rw [hj'] at hl
        exact h.refers j hj l hl
      · rw [hj'] at hl
        simp [Expr.refs, Expr.children] at hl
    · unfold body? at hbody
      rcases hget j with hj' | hj'
      · rw [hj'] at hbody
        exact h.bodies j hj body hbody
      · rw [hj'] at hbody
        obtain rfl := Option.some.inj hbody
        exact Block.everywhere_iff.2 (by simp)
  · exact h

end Arena

/-! ## Walks on which nothing happens -/

namespace Pass

variable {σ ε α β : Type}

/-- A walk answers, and changes at most what it has seen, and whether it is
exhausted. -/
def Rests (m : StateM (Walk σ ε) α) (v : α) (w : Walk σ ε) : Prop :=
  ∃ seen exhausted, m w = (v, { w with seen, exhausted })

namespace Rests

variable {v : α} {u : β} {w : Walk σ ε}

/-- A value with the walk as it is. -/
theorem pure (v : α) (w : Walk σ ε) : Rests (Pure.pure v) v w := ⟨w.seen, w.exhausted, rfl⟩

/-- **One after the other.** What was seen and whether the walk is exhausted
may change in between, so the second has to rest whatever they are. -/
theorem bind {m : StateM (Walk σ ε) α} {f : α → StateM (Walk σ ε) β} (hm : Rests m v w)
    (hf : ∀ seen exhausted, Rests (f v) u { w with seen, exhausted }) : Rests (m >>= f) u w := by
  obtain ⟨seen, exhausted, hm⟩ := hm
  obtain ⟨seen', exhausted', hf⟩ := hf seen exhausted
  refine ⟨seen', exhausted', ?_⟩
  show (match m w with | (a, s) => f a s) = _
  rw [hm]
  exact hf

/-- One by one over a list. -/
theorem forM {l : List α} {f : α → StateM (Walk σ ε) PUnit}
    (hf : ∀ a ∈ l, ∀ seen exhausted, Rests (f a) ⟨⟩ { w with seen, exhausted }) :
    Rests (l.forM f) ⟨⟩ w := by
  induction l generalizing w with
  | nil => exact pure _ _
  | cons a l ih =>
    rw [List.forall_mem_cons] at hf
    exact bind (hf.1 w.seen w.exhausted) fun _ _ => ih hf.2

end Rests

/-- A pass has nothing to do where there is no sugar. -/
structure Idle (r : Pass σ ε) : Prop where
  expression : ∀ {P : Set ExprId} {space x} (owner : Stmt), space.arena.PlainOn P → x ∈ P →
    (r.expression x owner).run space = (.ok (), space)
  statement : ∀ (c : Cursor) (space), c.stmt.kind.isSugar = false →
    (r.statement c).run space = (.ok c, space)

/-- An attempt rests if what is tried does and nothing has failed before. -/
theorem attempt_rests {edit : Edit σ ε α} {v : α} {w : Walk σ ε}
    (h : edit.run w.space = (.ok v, w.space)) (hwalk : w.failure = none) (default : α) :
    Rests (attempt edit default) v w := by
  refine ⟨w.seen, w.exhausted, ?_⟩
  rw [attempt_eq, if_neg (by simp [hwalk]), h]

/-- A visit rests if its callback does. -/
theorem visit_rests {r : Pass σ ε} {c : Cursor} {w : Walk σ ε}
    (h : (r.statement c).run w.space = (.ok c, w.space)) (hwalk : w.failure = none) :
    Rests (r.visit c) c w := by
  refine ⟨w.seen, w.exhausted, ?_⟩
  rw [visit, call_eq, if_neg (by simp [hwalk]), h]

variable {r : Pass σ ε} {enter : Block → StateM (Walk σ ε) Block} {w : Walk σ ε}
  {P : Set ExprId}

/-- Lists are entered one after another. -/
theorem mapM_rests : ∀ {bs : List Block} {w : Walk σ ε},
    (∀ b ∈ bs, ∀ seen exhausted, Rests (enter b) b { w with seen, exhausted }) →
    Rests (bs.mapM enter) bs w
  | [], _, _ => Rests.pure _ _
  | b :: bs, w, h => by
    rw [List.forall_mem_cons] at h
    rw [List.mapM_cons]
    refine Rests.bind (h.1 w.seen w.exhausted) fun _ _ => ?_
    exact Rests.bind (mapM_rests h.2) fun _ _ => Rests.pure _ _

/-- A statement rests if all its nested lists do. -/
theorem mapBlocks_rests {kind : StmtKind}
    (h : ∀ b ∈ kind.blocks, ∀ seen exhausted, Rests (enter b) b { w with seen, exhausted }) :
    Rests (kind.mapBlocksM enter) kind w := by
  rw [StmtKind.mapBlocksM_eq, map_eq_pure_bind]
  refine Rests.bind (mapM_rests h) fun _ _ => ?_
  rw [StmtKind.putBlocks_blocks]
  exact Rests.pure _ _

/-- Walks of lists rest on plain lists. -/
def EnterRests (enter : Block → StateM (Walk σ ε) Block) (P : Set ExprId) : Prop :=
  ∀ {b : Block} {w : Walk σ ε}, w.failure = none → w.space.arena.PlainOn P →
    (∀ s ∈ b, s.kind.PlainOn P) → Rests (enter b) b w

/-- A literal rests if its body does: the same body is put back. -/
theorem walkLiteral_rests (he : EnterRests enter P) (hwalk : w.failure = none)
    (h : w.space.arena.PlainOn P) {x : ExprId} (hx : x ∈ P) :
    Rests (walkLiteral enter x) ⟨⟩ w := by
  unfold Rests
  rw [Contract.walkLiteral_eq]
  cases hbody : w.space.arena.body? x with
  | none => exact ⟨w.seen, w.exhausted, rfl⟩
  | some body =>
    dsimp only
    split
    · exact ⟨w.seen, w.exhausted, rfl⟩
    · obtain ⟨seen, exhausted, hleft⟩ := he (b := body) (w := { w with
        seen := x :: w.seen
        space := { w.space with arena := w.space.arena.setBody x [] } }) hwalk
        (h.setBody_nil x) (h.body hx hbody)
      refine ⟨seen, exhausted, ?_⟩
      rw [hleft]
      dsimp only
      rw [Arena.setBody_setBody hbody]

/-- An expression of a statement rests with all that is below it. -/
theorem walkRoot_rests (hr : r.Idle) (he : EnterRests enter P) (hwalk : w.failure = none)
    (h : w.space.arena.PlainOn P) (owner : Stmt) {x : ExprId} (hx : x ∈ P) :
    Rests (r.walkRoot enter owner x) ⟨⟩ w := by
  change Rests ((w.space.arena.descendants x).forM (walkLiteral enter) >>= fun _ =>
    attempt (r.expression x owner) ()) ⟨⟩ w
  refine Rests.bind (Rests.forM fun y hy seen exhausted =>
    walkLiteral_rests (w := { w with seen, exhausted }) he hwalk h ?_) fun seen exhausted => ?_
  · exact h.mem_of_mem_descendants hx hy
  · exact attempt_rests (w := { w with seen, exhausted }) (hr.expression owner h hx) hwalk ()

/-- **A list rests** from any place on, where nothing fresh is ahead. -/
theorem walkSlots_rests (hr : r.Idle) (he : EnterRests enter P) : ∀ (visits : ℕ)
    (behind ahead : List Slot) {w : Walk σ ε}, w.failure = none →
    w.space.arena.PlainOn P →
    (∀ slot ∈ ahead, slot.fresh = false ∧ slot.stmt.kind.PlainOn P) →
    Rests (r.walkSlots enter visits behind ahead) (behind.reverse ++ ahead) w
  | 0, behind, ahead, w, _, _, _ => Rests.pure _ _
  | visits + 1, behind, [], w, _, _, _ => by
    rw [List.append_nil]
    exact Rests.pure _ _
  | visits + 1, behind, ⟨⟨kind, line⟩, fresh⟩ :: after, w, hwalk, h, hahead => by
    obtain ⟨⟨rfl, hslot⟩, hafter⟩ := List.forall_mem_cons.1 hahead
    rw [walkSlots, List.takeWhile_cons_of_neg (by simp), List.dropWhile_cons_of_neg (by simp),
      List.reverse_nil, List.nil_append]
    refine Rests.bind (mapBlocks_rests fun b hb _ _ => he hwalk h (hslot.nested hb)) fun _ _ => ?_
    refine Rests.bind (Rests.forM fun x hx seen exhausted => walkRoot_rests
      (w := { w with seen, exhausted }) hr he hwalk h _ (hslot.ids x (StmtKind.mem_ids.2 (.inl hx))))
      fun seen exhausted => ?_
    refine Rests.bind (visit_rests (w := { w with seen, exhausted })
      (hr.statement ⟨behind, ⟨⟨kind, line⟩, false⟩, after⟩ _ hslot.throughout.1) hwalk)
      fun seen exhausted => ?_
    have hrest := walkSlots_rests (w := { w with seen, exhausted }) hr he visits
      (⟨⟨kind, line⟩, false⟩ :: behind) after hwalk h hafter
    simpa using hrest

/-- **A walk of any depth rests**; without depth it is exhausted, which is no
change of the arena. -/
theorem walkBlock_rests (hr : r.Idle) : ∀ depth : ℕ, EnterRests (r.walkBlock depth) P
  | 0, block, w, _, _, _ => ⟨w.seen, w.exhausted || !block.isEmpty, rfl⟩
  | depth + 1, block, w, hwalk, h, hblock => by
    have hslots : ∀ slot ∈ block.map fun s => (⟨s, false⟩ : Slot),
        slot.fresh = false ∧ slot.stmt.kind.PlainOn P := by
      intro slot hslot
      obtain ⟨s, hs, rfl⟩ := List.mem_map.1 hslot
      exact ⟨rfl, hblock s hs⟩
    refine Rests.bind (walkSlots_rests hr (walkBlock_rests hr depth) _ _ _ hwalk h hslots)
      fun _ _ => ?_
    have hmap : (([] : List Slot).reverse ++ block.map fun s => (⟨s, false⟩ : Slot)).map Slot.stmt =
        block := by
      simp [Function.comp_def]
    rw [hmap]
    exact Rests.pure _ _

/-- **An idle pass** leaves a plain chunk as it is. -/
theorem Idle.run (hr : r.Idle) {c : Chunk} (h : c.Plain) (state : σ) :
    (r.run state c).chunk = c ∧ (r.run state c).failure = none := by
  have harena : c.arena.PlainOn {i | c.Reaches i} :=
    ⟨h.nodes, fun _ hi _ hij => hi.trans hij, h.bodies⟩
  have hbody : ∀ s ∈ c.body, s.kind.PlainOn {i | c.Reaches i} := fun s hs =>
    ⟨Block.everywhere_iff.1 h.body s hs, fun x hx => ⟨x, Block.mem_ids_iff.2 ⟨s, hs, hx⟩, .refl⟩⟩
  obtain ⟨seen, exhausted, hwalk⟩ := walkBlock_rests hr (depth c) (b := c.body)
    (w := .start ⟨c.arena, state⟩) rfl harena hbody
  rw [Pass.run, StateT.run, hwalk]
  exact ⟨rfl, rfl⟩

end Pass

/-! ## The passes -/

section Edits

variable {σ ε : Type} {space : Workspace σ}

/-- Edits one by one over a list. -/
theorem Edit.forM_rests {f : ExprId → Edit σ ε Unit} : ∀ {l : List ExprId},
    (∀ y ∈ l, (f y).run space = (.ok (), space)) → (l.forM f).run space = (.ok (), space)
  | [], _ => rfl
  | y :: l, h => by
    rw [List.forall_mem_cons] at h
    rw [List.forM, Edit.run_bind, h.1]
    exact Edit.forM_rests h.2

end Edits

/-- Without assignments in parentheses there is nothing to hoist. -/
theorem AssignmentExpr.idle : AssignmentExpr.pass.Idle where
  statement _ _ _ := rfl
  expression {P space x} owner h hx := by
    refine Edit.forM_rests fun y hy => ?_
    have hplain := h.nodes y (h.mem_of_mem_descendants hx hy)
    unfold hoist
    rw [Edit.run_arena]
    split
    · rename_i op target value hget
      simp [hget, Expr.isSugar] at hplain
    · rfl

/-- Without compound assignments there is nothing to expand. -/
theorem CompoundAssignment.idle : CompoundAssignment.pass.Idle where
  statement c space h := by
    unfold CompoundAssignment.pass Pass.ofStatement
    dsimp only
    split
    · rename_i hkind
      simp [hkind, StmtKind.isSugar] at h
    · rfl
  expression _ _ _ := rfl

theorem Import.idle : Import.pass.Idle where
  statement c space h := by
    unfold Import.pass Pass.ofStatement
    dsimp only
    split
    · rename_i hkind
      simp [hkind, StmtKind.isSugar] at h
    · rfl
  expression _ _ _ := rfl

/-- Without intrinsics there is nothing to apply. -/
theorem Intrinsic.idle : Intrinsic.pass.Idle where
  statement c space h := by
    unfold Intrinsic.pass Pass.ofStatement
    dsimp only
    split
    · rename_i hkind
      simp [hkind, StmtKind.isSugar] at h
    · rfl
  expression _ _ _ := rfl

/-- What is no element is not lowered, however deep the lowering may go. -/
theorem Element.lower_idle (constructor : String) {a : Arena} {y : ExprId}
    (h : (a.get y).isSugar = false) : ∀ depth : ℕ, (lower constructor depth y).run a = ((), a)
  | 0 => rfl
  | depth + 1 => by
    unfold lower
    rw [Build.run_get]
    split
    · rename_i e hget
      simp [hget, Expr.isSugar] at h
    · rfl

theorem Element.forM_lower_idle (constructor : String) (depth : ℕ) {a : Arena} :
    ∀ {l : List ExprId}, (∀ y ∈ l, (a.get y).isSugar = false) →
      (l.forM (lower constructor depth)).run a = ((), a)
  | [], _ => rfl
  | y :: l, h => by
    rw [List.forall_mem_cons] at h
    rw [List.forM, StateT.run_bind, lower_idle constructor h.1]
    exact forM_lower_idle constructor depth h.2

theorem Element.idle (constructor : String) : (Element.pass constructor).Idle where
  statement _ _ _ := rfl
  expression {P space x} owner h hx := by
    have hleaves := forM_lower_idle constructor (space.arena.size + 1)
      (l := space.arena.leaves x) fun y hy =>
        h.nodes y (h.mem_of_mem_descendants hx (List.mem_of_mem_filter hy))
    unfold pass Pass.ofExpression
    dsimp only
    rw [Edit.run_arena, Edit.run_build, hleaves]

/-! ## Desugaring -/

/-- **Plain chunks stay as they are.** -/
theorem Chunk.Plain.desugar {c : Chunk} (h : c.Plain) (constructor : String) :
    LuaSugar.desugar constructor c = (c, none) := by
  have h₁ : hoistAssignments c = c := (AssignmentExpr.idle.run h ()).1
  have h₂ : expandCompound c = c := (CompoundAssignment.idle.run h ()).1
  have h₃ : expandImports c = c := (Import.idle.run h 0).1
  have h₄ : expandIntrinsics c = (c, none) :=
    Prod.ext (Intrinsic.idle.run h ()).1 (Intrinsic.idle.run h ()).2
  have h₅ : expandElements constructor c = c := ((Element.idle constructor).run h ()).1
  simp only [LuaSugar.desugar, h₁, h₂, h₃, h₄, h₅]

/-- **Desugaring reaches plain Lua and is idempotent.** Of a parsed chunk,
where it succeeds, it leaves no sugar anywhere; and of a chunk without
sugar, whatever else it is like, it succeeds and changes nothing. So
desugaring once more changes nothing. -/
theorem desugar_plain_idempotent :
    (∀ (tokens : List Token) (c d : Chunk) (constructor : String), parse tokens = .ok c →
      desugar constructor c = (d, none) →
      d.Plain ∧ ∀ again : String, desugar again d = (d, none)) ∧
    ∀ (c : Chunk) (constructor : String), c.Plain → desugar constructor c = (c, none) := by
  refine ⟨fun tokens c d constructor hparse hdesugar => ?_, fun c constructor h =>
    h.desugar constructor⟩
  have hplain := (parse_chunk_sound hparse).desugar_plain constructor (by rw [hdesugar])
  rw [hdesugar] at hplain
  exact ⟨hplain, fun again => hplain.desugar again⟩

theorem desugar_plain_idempotent_assignment : ∃ c, parse assignmentArgument = .ok c ∧
    (desugar "h" c).1.Plain ∧ desugar "h" (desugar "h" c).1 = ((desugar "h" c).1, none) := by
  obtain ⟨c, hparse, hnone⟩ : ∃ c, parse assignmentArgument = .ok c ∧ (desugar "h" c).2 = none :=
    ⟨_, rfl, by decide +kernel⟩
  have hdesugared := desugar_plain_idempotent.1 assignmentArgument c _ "h" hparse
    (Prod.ext rfl hnone)
  exact ⟨c, hparse, hdesugared.1, desugar_plain_idempotent.2 _ "h" hdesugared.1⟩

end LuaSugar
