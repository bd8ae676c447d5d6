import Mathlib
import LuaSugar.Proofs.Pass.Toured
import LuaSugar.Proofs.Desugar.Making
import LuaSugar.Proofs.Desugar.Expansion
/-!
# Intrinsics that decorate nothing

An intrinsic decorates the declaration behind it, and before anything else
it is an error. Which intrinsics are errors can be read off the chunk, of
which by the time of the error much has been rewritten: what stands behind
an intrinsic is what stood there on entry, since only another intrinsic in
front could have replaced it, and an intrinsic is no declaration.

A definition that has been decorated is walked as the assignment that it
became. The only literal below that has not been walked by then is the
function, so the walk comes by the body of the function when it would have
come by the definition.
-/

namespace LuaSugar

open Pass

/-- What intrinsics decorate. -/
def StmtKind.isDecorable : StmtKind → Bool
  | .localDecl _ _ | .function _ _ | .localFunction _ _ => true
  | _ => false

namespace Intrinsic

/-- How an intrinsic fails before what stands behind it. -/
def unpaired (line : ℕ) : Block → Option IntrinsicError
  | [] => some (.dangling line)
  | next :: _ => if next.kind.isDecorable then none else some (.target line next.kind.describe)

/-- How the pass fails at a visit. -/
def broken : Visit → Option IntrinsicError
  | .statement ⟨.intrinsic _ _, line⟩ behind => unpaired line behind
  | _ => none

/-! ## Nodes below which there is nothing to walk -/

/-- An arena, and nodes below which each literal has been walked. -/
structure Quiet where
  arena : Arena
  nodes : Set ExprId

namespace Quiet

instance : Preorder Quiet where
  le w w' := w.arena.Extends w'.arena ∧ w.nodes ⊆ w'.nodes
  le_refl w := ⟨.refl _, subset_rfl⟩
  le_trans _ _ _ h h' := ⟨h.1.trans h'.1, h.2.trans h'.2⟩

variable {seen : List ExprId} {w : Quiet} {a : Arena} {e : Expr} {i y : ExprId}

/-- Nodes at which there is nothing to do, and so below them. -/
structure Good (seen : List ExprId) (w : Quiet) (a : Arena) : Prop where
  arena : a = w.arena
  inside : ∀ y ∈ w.nodes, y.index < a.size
  idle : ∀ y ∈ w.nodes, a.body? y = none ∨ y ∈ seen
  children : ∀ y ∈ w.nodes, ∀ j ∈ (a.get y).children, j ∈ w.nodes

namespace Good

/-- A new node is none of them. -/
theorem aside (h : Good seen w a) (e : Expr) : ∃ w', w ≤ w' ∧ Good seen w' (a.alloc e).2 ∧
    w'.nodes = w.nodes := by
  have hget {y : ExprId} (hy : y ∈ w.nodes) : (a.alloc e).2.get y = a.get y :=
    Arena.get_alloc_of_lt e (h.inside y hy)
  refine ⟨⟨(a.alloc e).2, w.nodes⟩, ⟨h.arena ▸ Arena.extends_alloc a e, subset_rfl⟩,
    ⟨rfl, fun y hy => (h.inside y hy).trans (Arena.size_lt_alloc a e), fun y hy => ?_,
      fun y hy => ?_⟩, rfl⟩
  · rw [Arena.body?, hget hy]
    exact h.idle y hy
  · rw [hget hy]
    exact h.children y hy

/-- Unless it is no literal and they are what it is made of. -/
theorem alloc (h : Good seen w a) (hplain : e.isPlain) (hchildren : ∀ j ∈ e.children, j ∈ w.nodes) :
    Builds (Good seen) (Build.alloc e) (fun w' i => i ∈ w'.nodes ∧ w'.arena.get i = e) w a := by
  obtain ⟨w', hle, hgood, hnodes⟩ := h.aside e
  have hself := Arena.get_alloc_self a e
  have hbody : (a.alloc e).2.body? ⟨a.size⟩ = none := by
    unfold Arena.body?
    rw [hself]
    split
    · simp [Expr.isPlain] at hplain
    · rfl
  refine ⟨⟨w'.arena, insert ⟨a.size⟩ w.nodes⟩, ⟨hle.1, Set.subset_insert _ _⟩,
    ⟨hgood.arena, ?_, ?_, ?_⟩, Set.mem_insert _ _, ?_⟩
  · rintro y (rfl | hy)
    · exact Arena.size_lt_alloc a e
    · exact hgood.inside y (hnodes ▸ hy)
  · rintro y (rfl | hy)
    · exact .inl hbody
    · exact hgood.idle y (hnodes ▸ hy)
  · rintro y (rfl | hy) (j : ExprId) (hj : j ∈ ((a.alloc e).2.get _).children)
    · rw [hself] at hj
      exact .inr (hchildren j hj)
    · exact .inr (hnodes ▸ hgood.children y (hnodes ▸ hy) j hj)
  · show w'.arena.get ⟨a.size⟩ = e
    rw [← hgood.arena, hself]

/-- Below them. -/
theorem idle_descendantsWithin (h : Good seen w a) : ∀ {n : ℕ} {x : ExprId}, x ∈ w.nodes →
    ∀ y ∈ a.descendantsWithin n x, a.body? y = none ∨ y ∈ seen
  | 0, _, _, y, hy => by simp [Arena.descendantsWithin] at hy
  | n + 1, x, hx, y, hy => by
    rw [Arena.descendantsWithin, List.mem_append, List.mem_flatMap, List.mem_singleton] at hy
    rcases hy with ⟨j, hj, hy⟩ | rfl
    · exact h.idle_descendantsWithin (h.children x hx j hj) y hy
    · exact h.idle y hx

end Good

theorem makes (seen : List ExprId) : Makes (Good seen) fun w x => x ∈ w.nodes :=
  ⟨fun hle hx => hle.2 hx, fun h hplain hchildren =>
    (h.alloc hplain hchildren).mono fun _ _ _ hi => hi.1⟩

theorem Good.builds (h : Good seen w a) (e : Expr) :
    Builds (Good seen) (Build.alloc e) (fun _ _ => True) w a := by
  obtain ⟨w', hle, hgood, -⟩ := h.aside e
  exact ⟨w', hle, hgood, trivial⟩

/-- Whatever is built. -/
theorem makesLiterals (seen : List ExprId) : MakesLiterals (Good seen) fun _ _ => True :=
  ⟨⟨fun _ _ => trivial, fun h _ _ => h.builds _⟩, fun _ h _ _ => h.builds _⟩

end Quiet

/-! ## Callbacks -/

/-- The call of an intrinsic with a function that it decorates. -/
structure Calls (size : ℕ) (a : Arena) (seen : List ExprId) (body : Block) (call : ExprId) :
    Prop where
  below : ∃ l literal, a.descendants call = l ++ [literal, call] ∧
    (∀ y ∈ l, a.body? y = none ∨ y ∈ seen) ∧ a.body? literal = some body ∧
    size ≤ literal.index ∧ literal ∉ seen
  inside : call.index < a.size
  call : a.body? call = none

/-- The statement in front of a walk, in place of the one that was there: a
declaration is kept, and a definition became an assignment below which only
the function has not been walked. -/
inductive Stands (size : ℕ) (a : Arena) (seen : List ExprId) : Stmt → Stmt → Prop
  | kept {names values line} :
      Stands size a seen ⟨.localDecl names values, line⟩ ⟨.localDecl names values, line⟩
  | assigned {s body target call line} : s.kind.blocks = [body] → s.kind.roots = [] →
      (∀ y ∈ a.descendants target, a.body? y = none ∨ y ∈ seen) → Calls size a seen body call →
      Stands size a seen (.assign [target] [call] line) s

section Callbacks

open Quiet

variable {seen : List ExprId} {w : Quiet} {a : Arena} {size : ℕ} {e : ExprId} {args : List ExprId}

theorem builds_literal (h : Good seen w a) (func : FuncBody) :
    Builds (Good seen) (Build.alloc (.atom (.func func))) (fun w' i => i = ⟨a.size⟩ ∧
      w'.nodes = w.nodes ∧ w'.arena.get i = .atom (.func func)) w a := by
  obtain ⟨w', hle, hgood, hnodes⟩ := h.aside (.atom (.func func))
  refine ⟨w', hle, hgood, rfl, hnodes, ?_⟩
  rw [← hgood.arena]
  exact Arena.get_alloc_self a _

/-- **What decorating a function leaves** below the call. -/
theorem decorate_calls (h : Good seen w a) (hsize : size ≤ a.size)
    (hseen : ∀ y ∈ seen, y.index < a.size) (he : e ∈ w.nodes) (hargs : ∀ x ∈ args, x ∈ w.nodes)
    (signature : String) (func : FuncBody) : Builds (Good seen) (decorate e args signature func)
      (fun w' call => Calls size w'.arena seen func.body call) w a := by
  unfold decorate
  refine ((makes seen).text h signature).bind fun w₁ text a₁ hle₁ h₁ htext => ?_
  refine (builds_literal h₁ func).bind fun w₂ literal a₂ hle₂ h₂ ⟨hliteral, hnodes, hget⟩ => ?_
  obtain ⟨w₃, hle₃, h₃, hnodes₃⟩ := h₂.aside (.call e (args ++ [text, literal]))
  refine ⟨w₃, hle₃, h₃, ?_⟩
  have hinside : literal.index < w₂.arena.size :=
    Arena.inside_of_get_ne literal (by simp [hget])
  have hget₃ : w₃.arena.get literal = .atom (.func func) := by
    rw [hle₃.1.get_eq literal hinside, hget]
  have hcall : w₃.arena.get ⟨a₂.size⟩ = .call e (args ++ [text, literal]) := by
    rw [← h₃.arena, Arena.get_alloc_self]
  have hleaf : w₃.arena.descendantsWithin w₃.arena.size literal = [literal] := by
    obtain ⟨n, hn⟩ := Nat.exists_eq_succ_of_ne_zero
      (Nat.zero_lt_of_lt (hinside.trans_le hle₃.1.size_le)).ne'
    rw [hn, Arena.descendantsWithin, hget₃]
    rfl
  -- the intrinsic, its arguments and the signature come before the function
  refine ⟨⟨(e :: args ++ [text]).flatMap (w₃.arena.descendantsWithin w₃.arena.size), literal, ?_,
    fun y hy => ?_, ?_, ?_, fun hmem => ?_⟩, ?_, ?_⟩
  · show w₃.arena.descendants ⟨a₂.size⟩ = _ ++ [literal, ⟨a₂.size⟩]
    rw [Arena.descendants, Arena.descendantsWithin, hcall]
    simp [Expr.call, Expr.children, hleaf]
  · obtain ⟨x, hx, hy⟩ := List.mem_flatMap.1 hy
    have hquiet : x ∈ w₃.nodes := by
      rw [hnodes₃, hnodes]
      rcases List.mem_append.1 hx with hx | hx
      · rcases List.mem_cons.1 hx with rfl | hx
        · exact hle₁.2 he
        · exact hle₁.2 (hargs x hx)
      · rwa [List.mem_singleton.1 hx]
    exact h₃.arena ▸ h₃.idle_descendantsWithin hquiet y (h₃.arena ▸ hy)
  · exact Arena.body?_eq_some.2 ⟨func, hget₃, rfl⟩
  · rw [hliteral, h₁.arena]
    exact hsize.trans (h.arena ▸ hle₁.1.size_le)
  · refine (hseen literal hmem).not_ge ?_
    rw [hliteral, h₁.arena]
    exact h.arena ▸ hle₁.1.size_le
  · exact Arena.inside_of_get_ne ⟨a₂.size⟩ (by simp [hcall, Expr.call])
  · show w₃.arena.body? ⟨a₂.size⟩ = none
    simp [Arena.body?, hcall, Expr.call]

/-- What an intrinsic leaves of the statement behind it and of the slots
ahead. -/
def Replaced (size : ℕ) (seen : List ExprId) (next : Cursor) (w : Quiet)
    (result : Cursor × Stmt) : Prop :=
  ∃ s, ∃ inserted : List Slot, result.1 = ⟨next.before, ⟨s, next.focus.fresh⟩, inserted ++ next.after⟩ ∧
    (∀ slot ∈ inserted, slot.fresh) ∧ Stands size w.arena seen s next.stmt

/-- An assignment of what the intrinsic makes of a function. -/
theorem assignment_replaced {space : Workspace Unit} {next : Cursor} {target : ExprId}
    {func : FuncBody} {signature : String} {left : Stmt} (h : Good seen w space.arena)
    (hsize : size ≤ space.arena.size) (hseen : ∀ y ∈ seen, y.index < space.arena.size)
    (he : e ∈ w.nodes) (hargs : ∀ x ∈ args, x ∈ w.nodes) (htarget : target ∈ w.nodes)
    (hblocks : next.stmt.kind.blocks = [func.body]) (hroots : next.stmt.kind.roots = []) :
    Edits (Good seen) (do
      let call ← Edit.build (decorate e args signature func)
      pure (next.replace (.assign [target] [call] next.line), left) : Edit Unit IntrinsicError _)
      (fun w' => Replaced size seen next w') w space := by
  refine (Edits.build (decorate_calls h hsize hseen he hargs signature func)).bind
    fun w₁ call space₁ hle h₁ hcalls => .pure h₁ ?_
  refine ⟨_, [], rfl, by simp, .assigned hblocks hroots (fun y hy => ?_) hcalls⟩
  exact h₁.arena ▸ h₁.idle_descendantsWithin (hle.2 htarget) y (h₁.arena ▸ hy)

/-- **What an intrinsic makes of a declaration** stands for it. -/
theorem decorateNext_replaced {space : Workspace Unit} (h : Good seen w space.arena)
    (hsize : size ≤ space.arena.size) (hseen : ∀ y ∈ seen, y.index < space.arena.size)
    (he : e ∈ w.nodes) (hargs : ∀ x ∈ args, x ∈ w.nodes) (line : ℕ) {next : Cursor}
    (hnamed : next.stmt.kind.Named) (hnext : next.stmt.kind.isDecorable) :
    Edits (Good seen) (decorateNext line e args next) (fun w' => Replaced size seen next w') w
      space := by
  -- what is added to the arena is behind what was seen
  have later {w' : Quiet} {space' : Workspace Unit} (hle : w ≤ w')
      (h' : Good seen w' space'.arena) : space.arena.size ≤ space'.arena.size := by
    rw [h.arena, h'.arena]
    exact hle.1.size_le
  obtain ⟨before, ⟨⟨kind, line'⟩, fresh⟩, after⟩ := next
  unfold decorateNext
  split
  · rename_i names values hkind
    obtain rfl : kind = _ := hkind
    have hcall : Builds (Good seen) (do
        let descriptors ← names.mapM (descriptor line')
        Build.call e (args ++ descriptors)) (fun _ _ => True) w space.arena :=
      (Builds.mapM (Q := fun _ _ => True) (fun _ _ => trivial) h fun w' name a' _ _ h' =>
        (makesLiterals seen).descriptor h' line' name).bind fun w' tables a' _ h' _ =>
          (makesLiterals seen).call h' trivial fun _ _ => trivial
    -- a declaration stays, with a call behind it
    refine (Edits.build hcall).bind fun w₁ call space₁ _ h₁ _ => .pure h₁ ?_
    exact ⟨_, [⟨.call call line', true⟩], rfl, by simp, .kept⟩
  · rename_i path func hkind
    obtain rfl : kind = _ := hkind
    -- a function is assigned to its path, by way of the call
    refine (Edits.build ((makes seen).path h path.segments)).bind
      fun w₁ target? space₁ hle h₁ ⟨hnone, htarget⟩ => ?_
    cases target? with
    | none => exact absurd (hnone rfl) (hnamed path func rfl)
    | some target =>
      exact assignment_replaced h₁ (hsize.trans (later hle h₁))
        (fun y hy => (hseen y hy).trans_le (later hle h₁)) (hle.2 he)
        (fun x hx => hle.2 (hargs x hx)) (htarget target rfl) (by simp [StmtKind.blocks, Cursor.stmt])
        rfl
  · rename_i name func hkind
    obtain rfl : kind = _ := hkind
    refine (Edits.build ((makes seen).name h name)).bind fun w₁ target space₁ hle h₁ htarget => ?_
    exact assignment_replaced h₁ (hsize.trans (later hle h₁))
      (fun y hy => (hseen y hy).trans_le (later hle h₁)) (hle.2 he)
      (fun x hx => hle.2 (hargs x hx)) htarget rfl rfl
  · exact .throw h

/-- It does not fail. -/
theorem decorateNext_succeeds (line : ℕ) (e : ExprId) (args : List ExprId) {next : Cursor}
    (hnext : next.stmt.kind.isDecorable) (space : Workspace Unit) :
    ∃ result space', (decorateNext line e args next).run space = (.ok result, space') := by
  obtain ⟨before, ⟨⟨kind, line'⟩, fresh⟩, after⟩ := next
  cases kind with
  | localDecl names values => exact ⟨_, _, rfl⟩
  | localFunction name func => exact ⟨_, _, rfl⟩
  | function path func =>
    unfold decorateNext
    simp only [Cursor.stmt, Edit.run_bind, Edit.run_build]
    split <;> exact ⟨_, _, rfl⟩
  | _ => cases hnext

/-- Before other statements it does. -/
theorem decorateNext_fails (line : ℕ) (next : Cursor) (hnext : next.stmt.kind.isDecorable = false) :
    decorateNext line e args next = throw (.target line next.stmt.kind.describe) := by
  obtain ⟨before, ⟨⟨kind, line'⟩, fresh⟩, after⟩ := next
  cases kind with
  | localDecl | localFunction | function => cases hnext
  | _ => rfl

theorem decorateNext_adds {space : Workspace Unit} {a : Arena} (h : a = space.arena) (line : ℕ)
    (next : Cursor) : Edits Eq (decorateNext line e args next)
      (fun _ _ => True) a space := by
  have hm := makesLiterals_extends
  have hdecorate {a a' : Arena} (h : a = a') (signature : String) (func : FuncBody) :
      Builds Eq (decorate e args signature func) (fun _ _ => True) a a' :=
    (hm.text h signature).bind fun w₁ _ a₁ _ h₁ _ => (Builds.extends h₁ (.atom (.func func))).bind
      fun w₂ _ a₂ _ h₂ _ => .extends h₂ _
  unfold decorateNext
  split
  · rename_i names values hkind
    have hcall : Builds Eq (do
        let descriptors ← names.mapM (descriptor next.line)
        Build.call e (args ++ descriptors)) (fun _ _ => True) a space.arena :=
      (Builds.mapM (Q := fun _ _ => True) (fun _ _ => trivial) h fun w' name a' _ _ h' =>
        hm.descriptor h' next.line name).bind fun w' tables a' _ h' _ => .extends h' _
    exact (Edits.build hcall).bind fun w₁ call space₁ _ h₁ _ => .pure h₁ trivial
  · rename_i path func hkind
    refine (Edits.build (hm.path h path.segments)).bind fun w₁ target? space₁ _ h₁ _ => ?_
    cases target? with
    | none => exact .pure h₁ trivial
    | some target =>
      exact (Edits.build (hdecorate h₁ _ _)).bind fun w₂ call space₂ _ h₂ _ => .pure h₂ trivial
  · rename_i name func hkind
    refine (Edits.build (hm.name h name)).bind fun w₁ target space₁ _ h₁ _ => ?_
    exact (Edits.build (hdecorate h₁ _ _)).bind fun w₂ call space₂ _ h₂ _ => .pure h₂ trivial
  · exact .throw h

/-- **Nodes are only added** by a callback. -/
theorem statement_extends (c : Cursor) (space : Workspace Unit) :
    space.arena.Extends ((pass.statement c).run space).2.arena := by
  refine Edits.extends (Q := fun _ _ => True) ?_
  unfold pass ofStatement
  dsimp only
  split
  · split
    · exact .throw rfl
    · exact (decorateNext_adds rfl _ _).bind fun w' _ space' _ h' _ => .pure h' trivial
  · exact .pure rfl trivial

/-- **Other nodes stay no literals** through a walk. -/
theorem lasting_plain (i : ExprId) : Lasting pass fun walk =>
    i.index < walk.space.arena.size ∧ walk.space.arena.body? i = none := by
  refine ⟨fun _ _ h => h, fun walk x body h => ⟨by simpa using h.1, ?_⟩, fun _ h => h, fun c => ?_,
    fun x owner => ?_⟩
  · exact Arena.body?_of_hollow (Arena.hollow_setBody _ _ _ _) h.2
  · refine .call fun walk _ h => ?_
    have hext := statement_extends c walk.space
    have hleft : i.index < ((pass.statement c).run walk.space).2.arena.size ∧
        ((pass.statement c).run walk.space).2.arena.body? i = none :=
      ⟨h.1.trans_le hext.size_le, by rw [Arena.body?, hext.get_eq i h.1]; exact h.2⟩
    rcases hrun : (pass.statement c).run walk.space with ⟨v | e, space⟩ <;> rw [hrun] at hleft <;>
      exact hleft
  · exact .call fun _ _ h => h

end Callbacks

/-! ## The walk -/

section Tours

open Guide

variable {c : Chunk} {V : Vocabulary} {R : Prop}

/-- What the pass may do: no node of the chunk is overwritten. -/
def guide (c : Chunk) : Guide Unit IntrinsicError where
  chunk := c
  fails := broken
  touched _ := ∅
  own _ _ := True
  stands walk s' s := Stands c.arena.size walk.space.arena walk.seen s' s
  beside := True

theorem toursRoots (h : c.Sound V R) : ToursRoots (guide c) pass pass where
  ranked := by
    obtain ⟨rank, hsound⟩ := h.arena
    exact ⟨_, hsound.ranked⟩
  inside hx := Chunk.inside_of_mem_tour h hx
  touched_mono _ := subset_rfl
  untouched _ _ _ := Set.notMem_empty _
  own _ _ _ _ := trivial
  expression _ _ hat _ _ := by
    refine (Follows.attempt_idle rfl rfl (hat.visit rfl subset_rfl id)).mono fun _ _ _ _ => trivial

section Assignments

variable {enter enter' : Block → StateM (Walk Unit IntrinsicError) Block} {T : Block → Tour → Tour}
variable {walk : Walk Unit IntrinsicError} {t : Tour} {body : Block} {target call : ExprId}

/-- A root below which there is nothing to do. -/
theorem root_idle (hat : (guide c).At walk t) (owner : Stmt)
    (htarget : ∀ y ∈ walk.space.arena.descendants target,
      walk.space.arena.body? y = none ∨ y ∈ walk.seen) :
    (guide c).Follows (pass.walkRoot enter owner target) (pass.walkRoot enter' owner target)
      (fun walk' _ => walk' = walk) walk t := by
  refine .below ((ToursRoots.literals_idle hat htarget).bind
    (fun e _ => (Lasting.failure pass e).expression target owner) le_rfl fun _ walk₁ hat₁ heq => ?_)
  exact (Follows.attempt_idle rfl rfl hat₁).mono fun _ _ _ hidle => hidle.1.trans heq

/-- **The call of a decorated function** is walked as its body would be. -/
theorem root_calls (h : c.Sound V R) (he : (guide c).Enters pass enter enter' T)
    (hat : (guide c).At walk t) (owner : Stmt)
    (hcalls : Calls c.arena.size walk.space.arena walk.seen body call)
    (htour : (T body t).visits <+: c.tour) :
    (guide c).Follows (pass.walkRoot enter owner call) (pass.walkRoot enter' owner call)
      (fun _ _ => True) walk (T body t) := by
  obtain ⟨⟨l, literal, hbelow, hl, hbody, hnew, hunseen⟩, hinside, hcall⟩ := hcalls
  have hfailure (e : IntrinsicError) := Lasting.failure pass e
  have hsplit (f : ExprId → StateM (Walk Unit IntrinsicError) PUnit) :
      (l ++ [literal, call]).forM f = (l.forM f >>= fun _ => f literal >>= fun _ => f call) := by
    simp
  have hliteral : (guide c).Follows (walkLiteral enter literal) (walkLiteral enter' literal)
      (fun _ _ => True) walk (T body t) := by
    have hnew' : ¬ literal.index < (guide c).chunk.arena.size := not_lt.2 hnew
    have hwalk := (toursRoots h).walkBody he hat hbody hunseen (fun hold => absurd hold hnew')
      fun _ => trivial
    rw [if_neg hnew'] at hwalk
    exact hwalk htour
  refine .below (Follows.bind (Q := fun _ _ => True) ?_
    (fun e _ => (hfailure e).expression call owner) le_rfl fun _ walk' hat' _ =>
      (Follows.attempt_idle rfl rfl hat').mono fun _ _ _ _ => trivial)
  rw [hbelow, hsplit, hsplit]
  refine (ToursRoots.literals_idle hat hl).bind (fun e _ =>
    ((hfailure e).walkLiteral (he.stays e) literal).bind fun _ =>
      (hfailure e).walkLiteral (he.stays e) call) (he.grows body t) fun _ walk₁ hat₁ heq => ?_
  subst heq
  -- the call itself is no literal, whatever the body of the function did
  refine (hliteral.keeps ((lasting_plain call).walkLiteral (he.lasts (lasting_plain call)) literal)
    ⟨hinside, hcall⟩).bind (fun e _ => (hfailure e).walkLiteral (he.stays e) call) le_rfl
      fun _ walk₂ hat₂ hplain => ?_
  exact (ToursRoots.literal_idle hat₂ (.inl hplain.2.2)).mono fun _ _ _ _ => trivial

theorem inner_assign (r : Pass Unit IntrinsicError) (targets values : List ExprId) (line : ℕ) :
    r.inner enter (.assign targets values line) =
      ((targets ++ values).forM (r.walkRoot enter (.assign targets values line)) >>=
        fun _ => pure (.assign targets values line)) :=
  rfl

/-- **What stands for a definition** is walked as the definition would be. -/
theorem assigned_follows (h : c.Sound V R) (he : (guide c).Enters pass enter enter' T)
    (hat : (guide c).At walk t) (line : ℕ)
    (htarget : ∀ y ∈ walk.space.arena.descendants target,
      walk.space.arena.body? y = none ∨ y ∈ walk.seen)
    (hcalls : Calls c.arena.size walk.space.arena walk.seen body call)
    (htour : (T body t).visits <+: c.tour) :
    (guide c).Follows (pass.inner enter (.assign [target] [call] line))
      (pass.inner enter' (.assign [target] [call] line))
      (fun _ s => s = .assign [target] [call] line) walk (T body t) := by
  rw [inner_assign, inner_assign]
  refine Follows.bind (Q := fun _ _ => True) ?_ (fun _ _ => .pure _) le_rfl
    fun _ _ hat' _ => .pure hat' rfl
  have hpair (f : ExprId → StateM (Walk Unit IntrinsicError) PUnit) :
      ([target] ++ [call]).forM f = (f target >>= fun _ => f call) := by simp
  rw [hpair, hpair]
  refine (root_idle hat _ htarget).bind
    (fun e _ => (Lasting.failure pass e).walkRoot (he.stays e) _ call) (he.grows body t)
    fun _ walk₁ hat₁ heq => ?_
  subst heq
  exact root_calls h he hat₁ _ hcalls htour

end Assignments

/-- **Statements that are no intrinsics** are left as they are. -/
theorem statement_idle {cursor : Cursor} (h : ∀ e args, cursor.stmt.kind ≠ .intrinsic e args) :
    pass.statement cursor = pure cursor := by
  unfold pass ofStatement
  dsimp only
  split
  · rename_i e args hkind
    exact absurd hkind (h e args)
  · rfl

theorem broken_eq_none {s : Stmt} {behind : Block} (h : ∀ e args, s.kind ≠ .intrinsic e args) :
    broken (.statement s behind) = none := by
  obtain ⟨kind, line⟩ := s
  cases kind with
  | intrinsic e args => exact absurd rfl (h e args)
  | _ => rfl

theorem intrinsic_of_hollow {kind kind' : StmtKind} {e : ExprId} {args : List ExprId}
    (h : kind'.hollow = kind.hollow) (hkind : kind = .intrinsic e args) :
    kind' = .intrinsic e args := by
  subst hkind
  cases kind' <;> simp_all [StmtKind.hollow]

theorem statement_intrinsic (before after : List Slot) (e : ExprId) (args : List ExprId)
    (line : ℕ) (fresh : Bool) (slot : Slot) :
    pass.statement ⟨before, ⟨⟨.intrinsic e args, line⟩, fresh⟩, slot :: after⟩ = (do
      let (next, left) ← decorateNext line e args
        ⟨⟨⟨.intrinsic e args, line⟩, fresh⟩ :: before, slot, after⟩
      pure ((next.backTo before.length).replace left)) :=
  rfl

/-- **Before what it decorates**, an intrinsic makes room for what stands for
it, with new statements behind. -/
theorem statement_decorates {seen : List ExprId} {w : Quiet} {space : Workspace Unit} {size : ℕ}
    (before : List Slot) {e : ExprId} {args : List ExprId} (line : ℕ) {next : Stmt} (rest : Block)
    (h : Quiet.Good seen w space.arena) (hsize : size ≤ space.arena.size)
    (hseen : ∀ y ∈ seen, y.index < space.arena.size) (hquiet : ∀ x ∈ e :: args, x ∈ w.nodes)
    (hnamed : next.kind.Named) (hnext : next.kind.isDecorable) :
    ∃ left s inserted space',
      (pass.statement ⟨before, ⟨⟨.intrinsic e args, line⟩, false⟩, Block.slots (next :: rest)⟩).run
        space = (.ok ⟨before, ⟨left, false⟩, ⟨s, false⟩ :: (inserted ++ Block.slots rest)⟩, space') ∧
      space.arena.Extends space'.arena ∧ (∀ slot ∈ inserted, slot.fresh) ∧
      Stands size space'.arena seen s next := by
  obtain ⟨he, hargs⟩ := List.forall_mem_cons.1 hquiet
  -- the callback works one step ahead, and the cursor comes back
  let cursor : Cursor :=
    ⟨⟨⟨.intrinsic e args, line⟩, false⟩ :: before, ⟨next, false⟩, Block.slots rest⟩
  have hcursor : cursor.stmt.kind.Named ∧ cursor.stmt.kind.isDecorable := ⟨hnamed, hnext⟩
  obtain ⟨w', hle, h', hreplaced⟩ := decorateNext_replaced h hsize hseen he hargs line
    hcursor.1 hcursor.2
  obtain ⟨result, space', hrun⟩ := decorateNext_succeeds line e args hcursor.2 space
  rw [hrun] at h' hreplaced
  obtain ⟨s, inserted, hresult, hinserted, hstands⟩ := hreplaced result rfl
  have harena : space'.arena = w'.arena := h'.arena
  refine ⟨result.2, s, inserted, space', ?_, ?_, hinserted, harena ▸ hstands⟩
  · show (pass.statement ⟨before, _, ⟨next, false⟩ :: Block.slots rest⟩).run _ = _
    -- back over what was put ahead, the intrinsic itself is replaced
    have hback := Move.backTo_index before [] (inserted ++ Block.slots rest)
      ⟨⟨.intrinsic e args, line⟩, false⟩ ⟨s, false⟩
    rw [statement_intrinsic, Edit.run_bind, hrun]
    show (Except.ok ((result.1.backTo before.length).replace result.2), space') = _
    rw [hresult]
    exact congrArg (fun cursor : Cursor => (Except.ok (cursor.replace result.2), space')) hback
  · rw [h.arena, harena]
    exact hle.1

/-- Before anything else it fails. -/
theorem statement_undecorable {before : List Slot} {e : ExprId} {args : List ExprId} {line : ℕ}
    {next : Stmt} {rest : Block} (hnext : next.kind.isDecorable = false) :
    pass.statement ⟨before, ⟨⟨.intrinsic e args, line⟩, false⟩, Block.slots (next :: rest)⟩ =
      throw (.target line next.kind.describe) := by
  show pass.statement ⟨before, _, ⟨next, false⟩ :: Block.slots rest⟩ = _
  rw [statement_intrinsic, decorateNext_fails line ⟨_, ⟨next, false⟩, _⟩ hnext]
  rfl

/-- Below roots that have been visited there is nothing to do. -/
theorem quiet_below (h : c.Sound V R) {walk : Walk Unit IntrinsicError} {t : Tour}
    (hat : (guide c).At walk t) {xs : List ExprId} (hinside : ∀ x ∈ xs, x.index < c.arena.size)
    (hseen : ∀ x ∈ xs, ∀ y ∈ c.arena.descendants x, c.arena.body? y ≠ none → y ∈ t.seen) :
    ∃ w, Quiet.Good walk.seen w walk.space.arena ∧ ∀ x ∈ xs, x ∈ w.nodes := by
  obtain ⟨ρ, hr⟩ := (toursRoots h).ranked
  have hchunk {y : ExprId} (hy : ∃ x ∈ xs, y ∈ c.arena.descendants x) : y.index < c.arena.size := by
    obtain ⟨x, hx, hy⟩ := hy
    exact hr.inside_of_reaches (hinside x hx) (Arena.reaches_of_mem_descendants hy)
  have hhollow {y : ExprId} (hy : ∃ x ∈ xs, y ∈ c.arena.descendants x) :
      (walk.space.arena.get y).hollow = (c.arena.get y).hollow :=
    hat.hollow y (hchunk hy) (Set.notMem_empty y)
  refine ⟨⟨walk.space.arena, {y | ∃ x ∈ xs, y ∈ c.arena.descendants x}⟩,
    ⟨rfl, fun y hy => (hchunk hy).trans_le hat.size, fun y hy => ?_, fun y hy j hj => ?_⟩,
    fun x hx => ⟨x, hx, c.arena.self_mem_descendants x⟩⟩
  · by_cases hbody : c.arena.body? y = none
    · exact .inl (Arena.body?_of_hollow (hhollow hy) hbody)
    · obtain ⟨x, hx, hbelow⟩ := hy
      exact .inr ((hat.seen y (hchunk ⟨x, hx, hbelow⟩)).2 (hseen x hx y hbelow hbody))
  · rw [Arena.children_of_hollow (hhollow hy)] at hj
    obtain ⟨x, hx, hy⟩ := hy
    exact ⟨x, hx, hr.mem_descendants_of_child hy j hj⟩

/-- **An intrinsic** decorates the statement behind it, or fails. -/
theorem intrinsic_follows (h : c.Sound V R) {walk : Walk Unit IntrinsicError} {t : Tour}
    {before : List Slot} {e : ExprId} {args : List ExprId} {line : ℕ} {rest : Block}
    (hat : (guide c).At walk t)
    (htour : t.visits ++ [.statement ⟨.intrinsic e args, line⟩ rest] <+: c.tour)
    (hseen : ∀ x ∈ e :: args, ∀ y ∈ c.arena.descendants x, c.arena.body? y ≠ none → y ∈ t.seen) :
    (guide c).Follows
      (attempt (pass.statement ⟨before, ⟨⟨.intrinsic e args, line⟩, false⟩, Block.slots rest⟩)
        ⟨before, ⟨⟨.intrinsic e args, line⟩, false⟩, Block.slots rest⟩)
      (attempt (pass.statement ⟨before, ⟨⟨.intrinsic e args, line⟩, false⟩, Block.slots rest⟩)
        ⟨before, ⟨⟨.intrinsic e args, line⟩, false⟩, Block.slots rest⟩)
      (fun walk' cursor => (guide c).Ahead walk' cursor.after rest) walk
      (t.visit (.statement ⟨.intrinsic e args, line⟩ rest)) := by
  have hfails {err : IntrinsicError} (herr : unpaired line rest = some err) :
      (t.visit (.statement ⟨.intrinsic e args, line⟩ rest)).visits.findSome? (guide c).fails =
        some err := hat.findSome?_visit herr
  cases rest with
  -- nothing follows the intrinsic, which is the error that the tour says
  | nil =>
    refine .attempt hat.succeeded rfl (fun v space hrun => ?_) fun err space hrun => ?_
    · cases hrun
    · cases hrun
      exact hfails rfl
  | cons next rest =>
    by_cases hnext : next.kind.isDecorable
    -- a declaration or a definition follows: the callback decorates it
    · obtain ⟨list, hlist⟩ := Chunk.hasVisit_of_mem
        (htour.subset (List.mem_append_right _ (List.mem_singleton_self _)))
      have hnamed : next.kind.Named :=
        (Block.everywhere_iff.1 (named_of_hasList h hlist) next (by simp)).1
      have hinside (x : ExprId) (hx : x ∈ e :: args) : x.index < c.arena.size :=
        hlist.inside h x (Block.mem_ids_iff.2
          ⟨⟨.intrinsic e args, line⟩, by simp, StmtKind.mem_ids.2 (.inl hx)⟩)
      obtain ⟨w, hgood, hquiet⟩ := quiet_below h hat hinside hseen
      obtain ⟨left, s, inserted, space, hrun, hext, hinserted, hstands⟩ :=
        statement_decorates before line rest hgood hat.size hat.inside hquiet hnamed hnext
      refine .attempt hat.succeeded rfl (fun v space' hv => ?_) fun err space' herr => ?_
      · cases hrun.symm.trans hv
        exact ⟨hat.build (if_pos hnext) hext subset_rfl id, [], by simp,
          .inr ⟨next, s, rest, inserted, rfl, hinserted, hstands, rfl⟩⟩
      · cases hrun.symm.trans herr
    -- anything else is refused, as the tour says
    · rw [Bool.not_eq_true] at hnext
      rw [statement_undecorable hnext]
      refine .attempt hat.succeeded rfl (fun v space hrun => ?_) fun err space hrun => ?_
      · cases hrun
      · cases hrun
        exact hfails (by simp [unpaired, hnext])

theorem toured (h : c.Sound V R) : Toured (guide c) pass pass := by
  have hroots := toursRoots h
  refine { hroots with statement := ?_, inner := ?_ }
  · intro walk t s s' before rest hat htour hline hhollow hseen
    by_cases hkind : ∃ e args, s.kind = .intrinsic e args
    · obtain ⟨e, args, hkind⟩ := hkind
      obtain ⟨kind, line⟩ := s
      obtain ⟨kind', line'⟩ := s'
      obtain rfl : line' = line := hline
      obtain rfl : kind' = .intrinsic e args := intrinsic_of_hollow hhollow hkind
      obtain rfl : kind = .intrinsic e args := hkind
      exact intrinsic_follows h hat htour hseen
    · have hs : ∀ e args, s.kind ≠ .intrinsic e args := fun e args heq => hkind ⟨e, args, heq⟩
      have hidle (cursor : Cursor) (hcursor : cursor.stmt = s') :
          pass.statement cursor = pure cursor := statement_idle fun e args heq =>
        hkind ⟨e, args, intrinsic_of_hollow hhollow.symm (hcursor ▸ heq)⟩
      refine (Follows.attempt_idle (hidle _ rfl) (hidle _ rfl)
        (hat.visit (broken_eq_none hs) subset_rfl id)).mono fun walk' cursor _ hcursor => ?_
      rw [hcursor.2]
      exact ⟨[], by simp, .inl rfl⟩
  · intro enter enter' T he walk t s s' rest hat hstands htour
    have hinner := (List.prefix_append _ _).trans htour
    -- neither a declaration nor an assignment is an intrinsic
    have hleft {s'' : Stmt} (hs'' : ∀ e args, s''.kind ≠ .intrinsic e args) (cursor : Cursor)
        (hcursor : cursor.stmt = s'') :
        pass.statement cursor = pure cursor ∧ pass.statement cursor = pure cursor :=
      ⟨statement_idle (hcursor ▸ hs''), statement_idle (hcursor ▸ hs'')⟩
    cases hstands with
    | @kept names values line =>
      refine (hroots.walkInner he hat _ hinner).mono fun walk' s'' hat' ⟨_, hhollow⟩ =>
        ⟨hleft fun e args heq => ?_, hat'.visit rfl subset_rfl id⟩
      cases intrinsic_of_hollow hhollow.symm heq
    | @assigned _ body target call line hblocks hnone htarget hcalls =>
      have hs : ∀ e args, s.kind ≠ .intrinsic e args := fun e args heq => by
        simp [heq, StmtKind.blocks] at hblocks
      have htourInner : c.arena.tourInner T s t = T body t := by
        rw [Arena.tourInner, hblocks, hnone]
        rfl
      have hinner : (c.arena.tourInner T s t).visits <+: c.tour := hinner
      rw [htourInner] at hinner
      refine (htourInner ▸ assigned_follows h he hat line htarget hcalls hinner).mono
        fun walk' s'' hat' hs'' => ⟨hleft fun e args heq => ?_,
          hat'.visit (broken_eq_none hs) subset_rfl id⟩
      cases hs''
      cases heq

end Tours

end Intrinsic

/-! ## Chunks -/

open Intrinsic

section Chunks

variable {tokens : List Token} {c d : Chunk} {V : Vocabulary} {R : Prop}

/-- **The error of the pass** is that of the first visit that has one. -/
theorem expandIntrinsics_first (h : c.Sound V R) :
    (expandIntrinsics c).2 = c.tour.findSome? broken :=
  ((toured h).run (show (guide c).own ⟨c.arena, ()⟩ [] from trivial)).1

/-- An intrinsic that has an error, wherever it stands. -/
theorem exists_broken (h : c.Sound V R) : c.tour.findSome? broken ≠ none ↔
    ∃ before e args line behind, c.HasList (before ++ ⟨.intrinsic e args, line⟩ :: behind) ∧
      unpaired line behind ≠ none := by
  rw [ne_eq, List.findSome?_eq_none_iff]
  push Not
  constructor
  · rintro ⟨v, hv, hbroken⟩
    cases v with
    | root x s => exact absurd rfl hbroken
    | statement s behind =>
      obtain ⟨before, hlist⟩ := Chunk.hasVisit_of_mem hv
      obtain ⟨kind, line⟩ := s
      cases kind with
      | intrinsic e args => exact ⟨before, e, args, line, behind, hlist, hbroken⟩
      | _ => exact absurd rfl hbroken
  · rintro ⟨before, e, args, line, behind, hlist, hbroken⟩
    exact ⟨.statement ⟨.intrinsic e args, line⟩ behind, (Chunk.mem_tour h).2 ⟨before, hlist⟩, hbroken⟩

theorem unpaired_ne_none {line : ℕ} {behind : Block} : unpaired line behind ≠ none ↔
    behind = [] ∨ ∃ next rest, behind = next :: rest ∧ next.kind.isDecorable = false := by
  cases behind with
  | nil => simp [unpaired]
  | cons next rest => by_cases hnext : next.kind.isDecorable <;> simp [unpaired, hnext]

/-- **Intrinsics that decorate nothing.** Of a parsed chunk that has come
through the passes before, the error is that of the first intrinsic, in the
order of the walk, behind which stands nothing or no declaration; and the
walk comes by each statement of every list. So there is an error if and
only if there is such an intrinsic in some list. -/
theorem expandIntrinsics_error (h : parse tokens = .ok c)
    (hd : d = expandImports (expandCompound (hoistAssignments c))) :
    (expandIntrinsics d).2 = d.tour.findSome? broken ∧
      (∀ v, v ∈ d.tour ↔ d.HasVisit v) ∧
      ((expandIntrinsics d).2 ≠ none ↔ ∃ before e args line behind,
        d.HasList (before ++ ⟨.intrinsic e args, line⟩ :: behind) ∧
          (behind = [] ∨ ∃ next rest, behind = next :: rest ∧ next.kind.isDecorable = false)) := by
  have hsound : d.Sound .anything False :=
    hd ▸ (parse_chunk_sound h).passed [.assignments, .compound, .imports]
  refine ⟨expandIntrinsics_first hsound, fun v => Chunk.mem_tour hsound, ?_⟩
  rw [expandIntrinsics_first hsound, exists_broken hsound]
  simp only [unpaired_ne_none]

/-- The intrinsic in the block comes before the one behind it. -/
theorem expandIntrinsics_error_nested : ∃ tokens c d,
    tokenize "do @a break end\n@b" = .ok tokens ∧ parse tokens = .ok c ∧
      d = expandImports (expandCompound (hoistAssignments c)) ∧
      d.tour.findSome? broken = some (.target 1 "break") ∧
      ∃ before e args line behind, d.HasList (before ++ ⟨.intrinsic e args, line⟩ :: behind) ∧
        (behind = [] ∨ ∃ next rest, behind = next :: rest ∧ next.kind.isDecorable = false) := by
  obtain ⟨tokens, c, htokens, hparse, herror⟩ := exists_parsed (P := fun _ c =>
    (expandIntrinsics (expandImports (expandCompound (hoistAssignments c)))).2 =
      some (.target 1 "break")) "do @a break end\n@b" (by decide +kernel)
  obtain ⟨hfirst, -, hexists⟩ := expandIntrinsics_error hparse rfl
  exact ⟨tokens, c, _, htokens, hparse, rfl, hfirst.symm.trans herror,
    hexists.1 (by rw [herror]; exact Option.some_ne_none _)⟩

end Chunks

end LuaSugar
