import Mathlib
import LuaSugar.Proofs.Desugar.Scope
import LuaSugar.Proofs.Pass.Route
import LuaSugar.Proofs.Pass.Toured
/-!
# Rewriting in place

A pass over expressions that overwrites the nodes of one kind below each
root, and makes nodes of its own for what it puts there. Of a parsed chunk
it leaves all else as it was: no list changes, and no other node; and of
the nodes it makes, each belongs to one node that it has overwritten.

That is so because in a parsed chunk a tour meets no id twice. What is below
a root has not been overwritten before the walk comes by it, and is not
overwritten again.
-/

namespace LuaSugar

namespace Pass

variable {σ ε : Type}

/-! ## Bodies are put back -/

/-- Walks of lists that leave every list as it is, and each literal with the
body it had. -/
structure Restores (enter : Block → StateM (Walk σ ε) Block) : Prop where
  block : ∀ block walk, (enter block walk).1 = block
  body : ∀ y b block, Stays (fun walk => walk.space.arena.body? y = some b) (enter block)

namespace Restores

variable {enter : Block → StateM (Walk σ ε) Block} {f : ExprId → Stmt → Edit σ ε Unit}
variable {y : ExprId} {b : Block}

theorem walkLiteral (he : Restores enter) (x : ExprId) :
    Stays (fun walk => walk.space.arena.body? y = some b) (walkLiteral enter x) := by
  intro walk hwalk
  rw [Contract.walkLiteral_eq]
  cases hbody : walk.space.arena.body? x with
  | none => exact hwalk
  | some body =>
    by_cases hseen : x ∈ walk.seen
    · simpa only [hseen, if_true] using hwalk
    · simp only [hseen, if_false, he.block]
      by_cases hy : y = x
      · subst hy
        have hempty := he.body y [] body ⟨⟨walk.space.arena.setBody y [], walk.space.state⟩,
          y :: walk.seen, walk.failure, walk.exhausted⟩ (Arena.body?_setBody_self (by simp [hbody]))
        rw [Arena.body?_setBody_self (by rw [hempty]; exact Option.some_ne_none _), ← hbody]
        exact hwalk
      · have hkept (a : Arena) (body : Block) : (a.setBody x body).body? y = a.body? y := by
          rw [Arena.body?, Arena.body?, Arena.get_setBody_of_ne _ hy]
        rw [hkept]
        exact he.body y b body _ ((hkept _ _).trans hwalk)

theorem mapBlocks (he : Restores enter) (kind : StmtKind) (walk : Walk σ ε) :
    (kind.mapBlocksM enter walk).1 = kind := by
  have hmapM : ∀ (l : List Block) (walk : Walk σ ε), (l.mapM enter walk).1 = l := by
    intro l
    induction l with
    | nil => exact fun _ => rfl
    | cons block l ih =>
      intro walk
      rw [List.mapM_cons]
      show (enter block walk).1 :: (l.mapM enter (enter block walk).2).1 = block :: l
      rw [he.block, ih]
  rw [StmtKind.mapBlocksM_eq]
  show kind.putBlocks (kind.blocks.mapM enter walk).1 = kind
  rw [hmapM, kind.putBlocks_blocks]

variable (hf : ∀ x owner y b,
  Stays (fun walk : Walk σ ε => walk.space.arena.body? y = some b) (attempt (f x owner) ()))
include hf

theorem walkRoot (he : Restores enter) (owner : Stmt) (x : ExprId) :
    Stays (fun walk => walk.space.arena.body? y = some b)
      ((ofExpression f).walkRoot enter owner x) := by
  intro walk hwalk
  have hbelow : Stays (fun walk : Walk σ ε => walk.space.arena.body? y = some b)
      ((walk.space.arena.descendants x).forM (Pass.walkLiteral enter)) :=
    .forM fun z _ => he.walkLiteral z
  exact hbelow.bind (fun _ => hf x owner y b) walk hwalk

theorem inner (he : Restores enter) (s : Stmt) :
    (∀ walk, ((ofExpression f).inner enter s walk).1 = s) ∧ ∀ y b,
      Stays (fun walk => walk.space.arena.body? y = some b) ((ofExpression f).inner enter s) := by
  refine ⟨fun walk => ?_, fun y b => ?_⟩
  · show (⟨(s.kind.mapBlocksM enter walk).1, s.line⟩ : Stmt) = s
    rw [he.mapBlocks]
    cases s
    rfl
  · exact (Stays.mapBlocks (he.body y b) _).bind fun kind =>
      (Stays.forM fun x _ => walkRoot hf he _ x).bind fun _ => .pure _

theorem walkSlots (he : Restores enter) : ∀ (visits : ℕ) (behind ahead : List Slot),
    (∀ walk, ((ofExpression f).walkSlots enter visits behind ahead walk).1 =
      behind.reverse ++ ahead) ∧
    ∀ y b, Stays (fun walk => walk.space.arena.body? y = some b)
      ((ofExpression f).walkSlots enter visits behind ahead)
  | 0, _, _ => ⟨fun _ => rfl, fun _ _ => .pure _⟩
  | visits + 1, behind, ahead => by
    rcases ahead_cases ahead with hfresh | ⟨skipped, s, after, rfl, hskipped⟩
    · rw [walkSlots_skip hfresh]
      exact ⟨fun _ => rfl, fun _ _ => .pure _⟩
    · have hidle (c : Cursor) (walk : Walk σ ε) :
          (ofExpression f).visit c walk = (c, walk) := by
        rw [Pass.visit, call_eq]
        split <;> rfl
      have hbind {α β : Type} (m : StateM (Walk σ ε) α) (k : α → StateM (Walk σ ε) β)
          (walk : Walk σ ε) : (m >>= k) walk = k (m walk).1 (m walk).2 := rfl
      rw [walkSlots_visit hskipped]
      refine ⟨fun walk => ?_, fun y b => ?_⟩
      · rw [hbind, (inner hf he s).1 walk, hbind, hidle, (walkSlots he visits _ _).1]
        simp
      · refine ((inner hf he s).2 y b).bind fun s => ?_
        refine Stays.bind (fun walk hwalk => by rwa [hidle]) fun c => ?_
        exact (walkSlots he visits _ _).2 y b

/-- **A walk puts back every body**, and leaves every list. -/
theorem walkBlock : ∀ d : ℕ, Restores ((ofExpression f).walkBlock d)
  | 0 => ⟨fun _ _ => rfl, fun _ _ _ _ hwalk => hwalk⟩
  | d + 1 => by
    have hslots (block : Block) := walkSlots hf (walkBlock d) block.length [] (Block.slots block)
    refine ⟨fun block walk => ?_, fun y b block => ?_⟩
    · show (((ofExpression f).walkSlots ((ofExpression f).walkBlock d) block.length []
        (Block.slots block) walk).1).map Slot.stmt = block
      rw [(hslots block).1 walk]
      simp [Block.slots, Function.comp_def]
    · rw [Pass.walkBlock]
      exact ((hslots block).2 y b).bind fun _ => .pure _

end Restores

end Pass

/-! ## New nodes -/

namespace Arena

variable {a a' : Arena} {n : ℕ} {i : ExprId}

/-- The nodes behind so many. -/
def since (a : Arena) (n : ℕ) : List ExprId := (List.range' n (a.size - n)).map ExprId.mk

theorem mem_since : i ∈ a.since n ↔ n ≤ i.index ∧ i.index < a.size := by
  rw [since, List.mem_map]
  constructor
  · rintro ⟨k, hk, rfl⟩
    rw [List.mem_range'_1] at hk
    exact ⟨hk.1, show k < a.size by omega⟩
  · intro h
    exact ⟨i.index, List.mem_range'_1.2 ⟨h.1, by omega⟩, rfl⟩

theorem since_nodup (a : Arena) (n : ℕ) : (a.since n).Nodup :=
  List.Nodup.map (fun _ _ h => congrArg ExprId.index h) List.nodup_range'

theorem since_self (a : Arena) : a.since a.size = [] := by simp [since]

theorem since_append (hn : n ≤ a.size) (hle : a.size ≤ a'.size) :
    a.since n ++ a'.since a.size = a'.since n := by
  rw [since, since, since, ← List.map_append]
  congr 1
  rw [show a'.size - n = (a.size - n) + (a'.size - a.size) by omega, ← List.range'_append]
  congr 2
  omega

end Arena

/-- A node that has the body it had. -/
theorem Arena.get_eq_of_hollow {a a' : Arena} {i : ExprId}
    (h : (a'.get i).hollow = (a.get i).hollow)
    (hbody : ∀ b, a.body? i = some b → a'.body? i = some b) : a'.get i = a.get i := by
  by_cases hliteral : ∃ func, a.get i = .atom (.func func)
  · obtain ⟨func, hfunc⟩ := hliteral
    obtain ⟨func', hfunc', hsame⟩ :=
      Arena.body?_eq_some.1 (hbody func.body (Arena.body?_eq_some.2 ⟨func, hfunc, rfl⟩))
    rw [hfunc] at h ⊢
    obtain ⟨body, hget⟩ := Expr.literal_of_hollow h
    obtain rfl := Atom.func.inj (Expr.atom.inj (hfunc'.symm.trans hget))
    obtain rfl : body = func.body := hsame
    cases func
    exact hget
  · exact Expr.eq_of_hollow h fun func hfunc => hliteral ⟨func, hfunc⟩

/-! ## What is put in place of nodes -/

/-- The nodes that a pass overwrites, and what it puts in their place. -/
structure Rewriting where
  here : Expr → Bool
  /-- What is put in place of a node below a root of a statement on some line,
  and the nodes that are made for it. -/
  form : Arena → ℕ → Expr → Expr → List ExprId → Prop
  literal : ∀ func, here (.atom (.func func)) = false
  lasts : ∀ {a a' : Arena} {line e e' parts}, (∀ i ∈ parts, a'.get i = a.get i) →
    form a line e e' parts → form a' line e e' parts

/-- The nodes below a root, each with the line of the statement. -/
def Visit.places (a : Arena) : Visit → List (ExprId × ℕ)
  | .root x s => (a.descendants x).map fun i => (i, s.line)
  | .statement _ _ => []

theorem Visit.map_fst_places (a : Arena) (v : Visit) :
    (v.places a).map Prod.fst = v.roots.flatMap a.descendants := by
  cases v <;> simp [places, roots, Function.comp_def]

namespace Rewriting

variable (K : Rewriting)

/-- Where the bodies of literals are left out, the same nodes are to be
overwritten. -/
theorem get_eq_of_hollow {e e' : Expr} (h : e'.hollow = e.hollow) (he : K.here e) : e' = e := by
  refine Expr.eq_of_hollow h ?_
  rintro func rfl
  rw [K.literal] at he
  cases he

theorem here_of_hollow {e e' : Expr} (h : e'.hollow = e.hollow) : K.here e' = K.here e := by
  rw [Bool.eq_iff_iff]
  exact ⟨fun he => K.get_eq_of_hollow h.symm he ▸ he, fun he => (K.get_eq_of_hollow h he).symm ▸ he⟩

/-- No literal is overwritten. -/
theorem ne_of_body? {a : Arena} {i y : ExprId} (hi : K.here (a.get i)) (hy : a.body? y ≠ none) :
    i ≠ y := by
  rintro rfl
  obtain ⟨b, hb⟩ := Option.ne_none_iff_exists'.1 hy
  obtain ⟨func, hfunc, -⟩ := Arena.body?_eq_some.1 hb
  rw [hfunc, K.literal] at hi
  cases hi

/-- What is left of an arena in which some nodes have been overwritten, one
after the other. -/
structure Left (a : Arena) (l : List (ExprId × ℕ)) (a' : Arena) (parts : ExprId → List ExprId) :
    Prop where
  size_le : a.size ≤ a'.size
  form : ∀ p ∈ l, K.here (a.get p.1) → K.form a' p.2 (a.get p.1) (a'.get p.1) (parts p.1)
  /-- What is new has been made for them, in the same order. -/
  made : (l.filter fun p => K.here (a.get p.1)).flatMap (fun p => parts p.1) = a'.since a.size

/-- The others are as they were. -/
structure Rewritten (a : Arena) (l : List (ExprId × ℕ)) (a' : Arena)
    (parts : ExprId → List ExprId) : Prop extends Left K a l a' parts where
  kept : ∀ i : ExprId, i.index < a.size → (∀ p ∈ l, p.1 = i → K.here (a.get i) = false) →
    a'.get i = a.get i

variable {K} {l l' : List (ExprId × ℕ)} {a a' a'' : Arena} {parts parts' : ExprId → List ExprId}
variable {i : ExprId} {line : ℕ} {made : List ExprId}

namespace Left

theorem mem_since (h : K.Left a l a' parts) {p : ExprId × ℕ} (hp : p ∈ l)
    (hhere : K.here (a.get p.1)) {i : ExprId} (hi : i ∈ parts p.1) : i ∈ a'.since a.size := by
  rw [← h.made]
  exact List.mem_flatMap.2 ⟨p, List.mem_filter.2 ⟨hp, hhere⟩, hi⟩

theorem nil (K : Rewriting) (a : Arena) (parts : ExprId → List ExprId) : K.Left a [] a parts :=
  ⟨le_rfl, by simp, by simp [Arena.since_self]⟩

/-- The bodies of literals do not matter. -/
theorem setBody (h : K.Left a l a' parts) {y : ExprId} (hy : y.index < a.size)
    (hbody : a.body? y ≠ none) (body : Block) : K.Left a l (a'.setBody y body) parts := by
  refine ⟨by simpa using h.size_le, fun p hp hhere => ?_, ?_⟩
  · rw [Arena.get_setBody_of_ne body (K.ne_of_body? hhere hbody)]
    refine K.lasts (fun i hi => Arena.get_setBody_of_ne body ?_) (h.form p hp hhere)
    rintro rfl
    exact (Arena.mem_since.1 (h.mem_since hp hhere hi)).1.not_gt hy
  · rw [h.made, Arena.since, Arena.since, Arena.size_setBody]

/-- **Other nodes are overwritten after those.** -/
theorem append (h : K.Left a l a' parts) (h' : K.Rewritten a' l' a'' parts')
    (hinside : ∀ p ∈ l ++ l', p.1.index < a.size) (hapart : ∀ p ∈ l, ∀ q ∈ l', p.1 ≠ q.1)
    (hsame : ∀ q ∈ l', (a'.get q.1).hollow = (a.get q.1).hollow) :
    ∃ parts, K.Left a (l ++ l') a'' parts := by
  obtain ⟨hinside, hinside'⟩ := List.forall_mem_append.1 hinside
  let both (i : ExprId) : List ExprId := if ∃ q ∈ l', q.1 = i then parts' i else parts i
  have hleft {p : ExprId × ℕ} (hp : p ∈ l) : both p.1 = parts p.1 :=
    if_neg fun ⟨q, hq, hqp⟩ => hapart p hp q hq hqp.symm
  have hright {q : ExprId × ℕ} (hq : q ∈ l') : both q.1 = parts' q.1 := if_pos ⟨q, hq, rfl⟩
  refine ⟨both, h.size_le.trans h'.size_le, fun p hp hhere => ?_, ?_⟩
  · rcases List.mem_append.1 hp with hp | hp
    · -- neither the node nor what was made for it is overwritten again
      rw [hleft hp, h'.kept p.1 ((hinside p hp).trans_le h.size_le)
        fun q hq hqp => absurd hqp.symm (hapart p hp q hq)]
      refine K.lasts (fun i hi => h'.kept i ?_ fun q hq hqi => ?_) (h.form p hp hhere)
      · exact (Arena.mem_since.1 (h.mem_since hp hhere hi)).2
      · have hnew := (Arena.mem_since.1 (h.mem_since hp hhere hi)).1
        exact absurd (hinside' q hq) (by rw [hqi]; omega)
    · have hget := K.get_eq_of_hollow (hsame p hp) hhere
      rw [hright hp, ← hget]
      exact h'.form p hp (hget ▸ hhere)
  · have hfilter : (l'.filter fun q => K.here (a.get q.1)) = l'.filter fun q => K.here (a'.get q.1) :=
      List.filter_congr fun q hq => (K.here_of_hollow (hsame q hq)).symm
    rw [List.filter_append, List.flatMap_append,
      List.flatMap_congr fun p hp => hleft (List.mem_of_mem_filter hp), hfilter,
      List.flatMap_congr fun q hq => hright (List.mem_of_mem_filter hq), h.made, h'.made]
    exact Arena.since_append h.size_le h'.size_le

end Left

namespace Rewritten

/-- A node that is not to be overwritten. -/
theorem idle (hi : K.here (a.get i) = false) : K.Rewritten a [(i, line)] a fun _ => [] where
  size_le := le_rfl
  form := by simp [hi]
  made := by simp [hi, Arena.since_self]
  kept _ _ _ := rfl

/-- A node that is to be overwritten. -/
theorem one (hi : K.here (a.get i)) (hsize : a.size ≤ a'.size)
    (hkept : ∀ j : ExprId, j.index < a.size → j ≠ i → a'.get j = a.get j)
    (hform : K.form a' line (a.get i) (a'.get i) (a'.since a.size)) :
    K.Rewritten a [(i, line)] a' fun _ => a'.since a.size where
  size_le := hsize
  form := by simpa using fun _ => hform
  made := by simp [hi]
  kept j hj hne := hkept j hj fun hji => by
    rw [hji, hi] at hne
    simpa using hne (i, line) (List.mem_singleton_self _) rfl

theorem append (h : K.Rewritten a l a' parts) (h' : K.Rewritten a' l' a'' parts')
    (hinside : ∀ p ∈ l ++ l', p.1.index < a.size) (hapart : ∀ p ∈ l, ∀ q ∈ l', p.1 ≠ q.1) :
    ∃ parts, K.Rewritten a (l ++ l') a'' parts := by
  have hsame : ∀ q ∈ l', a'.get q.1 = a.get q.1 := fun q hq =>
    h.kept q.1 (hinside q (List.mem_append_right _ hq)) fun p hp hpq => absurd hpq (hapart p hp q hq)
  obtain ⟨both, hboth⟩ := h.toLeft.append h' hinside hapart fun q hq => by rw [hsame q hq]
  refine ⟨both, hboth, fun i hi hl => ?_⟩
  have hget : a'.get i = a.get i := h.kept i hi fun p hp => hl p (List.mem_append_left _ hp)
  rw [h'.kept i (hi.trans_le h.size_le) fun q hq hqi =>
    hget ▸ hl q (List.mem_append_right _ hq) hqi, hget]

/-- **A loop over nodes**, each of which is as it was when the loop comes
to it. -/
theorem forM {f : ExprId → Edit Unit Empty Unit} {l : List ExprId} {space : Workspace Unit}
    (hnodup : l.Nodup) (hinside : ∀ i ∈ l, i.index < space.arena.size)
    (hf : ∀ l₁ i l₂ a parts, l = l₁ ++ i :: l₂ →
      K.Rewritten space.arena (l₁.map fun i => (i, line)) a parts →
      a.get i = space.arena.get i → ∃ a' made,
        (f i).run { space with arena := a } = (.ok (), { space with arena := a' }) ∧
          K.Rewritten a [(i, line)] a' made) :
    ∃ a parts, (l.forM f).run space = (.ok (), { space with arena := a }) ∧
      K.Rewritten space.arena (l.map fun i => (i, line)) a parts := by
  -- from the end, so that the last place is rewritten in what the others left
  induction l using List.reverseRecOn with
  | nil => exact ⟨_, fun _ => [], rfl, .nil K _ _, fun _ _ _ => rfl⟩
  | append_singleton l i ih =>
    obtain ⟨hl, hi⟩ := List.forall_mem_append.1 hinside
    obtain ⟨a, parts, hrun, hrewritten⟩ := ih hnodup.of_append_left hl fun l₁ j l₂ a' parts heq =>
      hf l₁ j (l₂ ++ [i]) a' parts (by rw [heq, List.append_assoc, List.cons_append])
    -- the last place is none of the others, so it is as it was
    have hapart : ∀ p ∈ l.map fun i => (i, line), p.1 ≠ i := by
      intro p hp
      obtain ⟨j, hj, rfl⟩ := List.mem_map.1 hp
      exact (List.nodup_append.1 hnodup).2.2 j hj i (List.mem_singleton_self i)
    obtain ⟨a', made, hrun', hmade⟩ := hf l i [] a parts rfl hrewritten
      (hrewritten.kept i (hi i (List.mem_singleton_self i)) fun p hp hpi => absurd hpi (hapart p hp))
    have hplaces : ∀ p ∈ (l ++ [i]).map fun i => (i, line), p.1.index < space.arena.size := by
      intro p hp
      obtain ⟨j, hj, rfl⟩ := List.mem_map.1 hp
      exact hinside j hj
    rw [List.map_append] at hplaces ⊢
    obtain ⟨both, hboth⟩ := hrewritten.append hmade hplaces fun p hp q hq =>
      List.mem_singleton.1 hq ▸ hapart p hp
    refine ⟨a', both, ?_, hboth⟩
    have happend : (l ++ [i]).forM f = l.forM f >>= fun _ => [i].forM f := List.forM_append
    rw [happend, Edit.run_bind, hrun]
    show (f i >>= fun _ => pure ()).run { space with arena := a } = _
    rw [Edit.run_bind, hrun']
    rfl

end Rewritten

/-! ## Callbacks -/

/-- A literal has a body. -/
abbrev HasBody (y : ExprId) (b : Block) (_ : Unit) (a : Arena) : Prop := a.body? y = some b

variable (K) in
/-- A callback that overwrites all that there is to overwrite below a
root. -/
structure Performs (f : ExprId → Stmt → Edit Unit Empty Unit) : Prop where
  run : ∀ {space x} (owner : Stmt), (space.arena.descendants x).Nodup →
    space.arena.ChildrenFirst (space.arena.descendants x) →
    (∀ i ∈ space.arena.descendants x, i.index < space.arena.size) →
    ∃ a parts, (f x owner).run space = (.ok (), { space with arena := a }) ∧
      K.Rewritten space.arena ((space.arena.descendants x).map fun i => (i, owner.line)) a parts
  body : ∀ {space x} (owner : Stmt) {y b}, HasBody y b () space.arena →
    Edits (HasBody y b) (f x owner) (fun _ _ => True) () space

variable (K) in
/-- What a walk with such a callback may do. -/
def guide (c : Chunk) : Pass.Guide Unit Empty where
  chunk := c
  fails _ := none
  touched vs := {i | K.here (c.arena.get i) ∧ ∃ p ∈ vs.flatMap (Visit.places c.arena), p.1 = i}
  own space vs := ∃ parts, K.Left c.arena (vs.flatMap (Visit.places c.arena)) space.arena parts
  stands _ _ _ := False
  beside := False

section Parsed

open Pass Pass.Guide

variable {tokens : List Token} {c : Chunk} {vs : List Visit} {v : Visit}

/-- Places are inside. -/
theorem inside_of_mem_places (h : parse tokens = .ok c) (hv : v ∈ c.tour) {p : ExprId × ℕ}
    (hp : p ∈ v.places c.arena) : p.1.index < c.arena.size := by
  have hsound := parse_chunk_sound h
  obtain ⟨rank, harena⟩ := hsound.arena
  cases v with
  | root x s =>
    obtain ⟨i, hi, rfl⟩ := List.mem_map.1 hp
    exact harena.ranked.inside_of_reaches (Chunk.inside_of_mem_tour hsound hv)
      (Arena.reaches_of_mem_descendants hi)
  | statement s behind => cases hp

/-- **In a parsed chunk a tour meets no id twice** at and below its roots. -/
theorem parse_descendants_nodup (h : parse tokens = .ok c) :
    (c.tour.flatMap fun v => v.roots.flatMap c.arena.descendants).Nodup :=
  (parse_unshared h).descendants_nodup (parse_chunk_sound h)

/-- A tour comes by no place twice. -/
theorem places_nodup (h : parse tokens = .ok c) (hvs : vs ++ [v] <+: c.tour) :
    ((v.places c.arena).map Prod.fst).Nodup ∧
      ∀ p ∈ vs.flatMap (Visit.places c.arena), ∀ q ∈ v.places c.arena, p.1 ≠ q.1 := by
  obtain ⟨later, hlater⟩ := hvs
  have hnodup := parse_descendants_nodup h
  simp only [← Visit.map_fst_places, ← List.map_flatMap, ← hlater, List.flatMap_append,
    List.flatMap_singleton] at hnodup
  have hboth := List.nodup_append.1 hnodup.of_append_left
  exact ⟨hboth.2.1, fun p hp q hq => hboth.2.2 _ (List.mem_map_of_mem hp) _ (List.mem_map_of_mem hq)⟩

variable {f : ExprId → Stmt → Edit Unit Empty Unit} {walk : Walk Unit Empty} {t : Tour} {x : ExprId}
variable {s : Stmt}

theorem touched_mono {vs vs' : List Visit} (hvs : vs <+: vs') :
    (K.guide c).touched vs ⊆ (K.guide c).touched vs' := by
  rintro i ⟨hhere, p, hp, rfl⟩
  obtain ⟨v, hv, hp⟩ := List.mem_flatMap.1 hp
  exact ⟨hhere, p, List.mem_flatMap.2 ⟨v, hvs.subset hv, hp⟩, rfl⟩

/-- **At a root** all that is below it is as it was, and is overwritten. -/
theorem Performs.expression (hK : K.Performs f) (h : parse tokens = .ok c) (owner : Stmt)
    (howner : owner.line = s.line) (hat : (K.guide c).At walk t)
    (htour : t.visits ++ [.root x s] <+: c.tour) :
    (K.guide c).Follows (attempt (f x owner) ()) (attempt (f x owner) ()) (fun _ _ => True) walk
      (t.visit (.root x s)) := by
  obtain ⟨rank, harena⟩ := (parse_chunk_sound h).arena
  obtain ⟨hnodup, hapart⟩ := places_nodup h htour
  -- no place below this root was passed before, so the nodes are as parsed
  have hroot : Visit.root x s ∈ c.tour :=
    htour.subset (List.mem_append_right _ (List.mem_singleton_self _))
  have hplace {i : ExprId} (hi : i ∈ c.arena.descendants x) :
      (i, s.line) ∈ (Visit.root x s).places c.arena := List.mem_map_of_mem hi
  have hbelow : ∀ i ∈ c.arena.descendants x, i.index < c.arena.size := fun i hi =>
    inside_of_mem_places h hroot (hplace hi)
  have huntouched : ∀ i ∈ c.arena.descendants x, i ∉ (K.guide c).touched t.visits := by
    rintro i hi ⟨-, p, hp, hpi⟩
    exact hapart p hp _ (hplace hi) hpi
  have hhollow : ∀ i ∈ c.arena.descendants x,
      (walk.space.arena.get i).hollow = (c.arena.get i).hollow := fun i hi =>
    hat.hollow i (hbelow i hi) (huntouched i hi)
  have heq : walk.space.arena.descendants x = c.arena.descendants x :=
    hat.descendants_eq harena.ranked (inside_of_mem_places h hroot
      (hplace (c.arena.self_mem_descendants x))) huntouched
  have honce : (walk.space.arena.descendants x).Nodup := by
    rw [heq]
    simpa [Visit.places, Function.comp_def] using hnodup
  have hfirst : walk.space.arena.ChildrenFirst (walk.space.arena.descendants x) := by
    rw [heq]
    intro l₁ i l₂ hl z hz
    have hi : i ∈ c.arena.descendants x := hl ▸ List.mem_append_right _ List.mem_cons_self
    rw [Arena.children_of_hollow (hhollow i hi)] at hz
    exact harena.ranked.childrenFirst x l₁ i l₂ hl z hz
  -- with children first and no id twice, the callback rewrites each place once
  obtain ⟨a, parts, hrun, hmade⟩ := hK.run owner honce hfirst
    fun i hi => (hbelow i (heq ▸ hi)).trans_le hat.size
  rw [heq, howner] at hmade
  have hplaces : (t.visits ++ [Visit.root x s]).flatMap (Visit.places c.arena) =
      t.visits.flatMap (Visit.places c.arena) ++
        (c.arena.descendants x).map fun i => (i, s.line) := by
    rw [List.flatMap_append, List.flatMap_singleton]
    rfl
  refine .attempt hat.succeeded rfl (fun v space hv => ?_) fun e => e.elim
  cases hrun.symm.trans hv
  refine ⟨hat.edit rfl hmade.size_le (fun i hi hi' => hmade.kept i (hi.trans_le hat.size) ?_)
    (touched_mono (List.prefix_append _ _)) ?_, trivial⟩
  -- only nodes of the kind are touched
  · rintro p hp rfl
    obtain ⟨j, hj, rfl⟩ := List.mem_map.1 hp
    rw [K.here_of_hollow (hhollow j hj)]
    refine Bool.eq_false_iff.2 fun hhere => hi' ⟨hhere, _, ?_, rfl⟩
    rw [hplaces]
    exact List.mem_append_right _ hp
  -- what earlier roots left, and what this one leaves
  · rintro ⟨before, hleft⟩
    show ∃ parts, K.Left c.arena ((t.visits ++ [Visit.root x s]).flatMap
      (Visit.places c.arena)) a parts
    rw [hplaces]
    refine hleft.append hmade (fun p hp => ?_) hapart fun q hq => ?_
    · rw [← hplaces] at hp
      obtain ⟨v, hv, hp⟩ := List.mem_flatMap.1 hp
      exact inside_of_mem_places h (htour.subset hv) hp
    · obtain ⟨j, hj, rfl⟩ := List.mem_map.1 hq
      exact hhollow j hj

theorem Performs.toured (hK : K.Performs f) (h : parse tokens = .ok c) :
    Toured (K.guide c) (.ofExpression f) (.ofExpression f) where
  ranked := by
    obtain ⟨rank, harena⟩ := (parse_chunk_sound h).arena
    exact ⟨_, harena.ranked⟩
  inside hx := Chunk.inside_of_mem_tour (parse_chunk_sound h) hx
  touched_mono := touched_mono
  untouched {vs x s} htour y hy hmem := by
    obtain ⟨-, p, hp, hpy⟩ := hmem
    exact (places_nodup h htour).2 p hp (y, s.line) (List.mem_map_of_mem hy) hpy
  own {space vs y} body hold hnew := by
    rintro ⟨parts, hleft⟩
    have hy : y.index < c.arena.size := Nat.lt_of_not_le hnew
    exact ⟨parts, hleft.setBody hy (hold hy) body⟩
  expression owner howner hat htour _ := hK.expression h owner howner hat htour
  statement {walk t s s' before rest} hat _ _ _ _ := by
    have hsame : (t.visits ++ [Visit.statement s rest]).flatMap (Visit.places c.arena) =
        t.visits.flatMap (Visit.places c.arena) := by
      rw [List.flatMap_append, List.flatMap_singleton]
      exact List.append_nil _
    refine (Follows.attempt_idle rfl rfl (hat.visit rfl (touched_mono (List.prefix_append _ _))
      fun hown => ?_)).mono ?_
    · show ∃ parts, K.Left c.arena ((t.visits ++ [Visit.statement s rest]).flatMap
        (Visit.places c.arena)) _ parts
      rw [hsame]
      exact hown
    · rintro _ _ _ ⟨-, rfl⟩
      exact ⟨[], by simp, .inl rfl⟩
  inner _ _ _ _ _ _ _ hstands := hstands.elim

variable (K) in
/-- **Rewriting in place.** Of a chunk that is left no list has changed, and
no node but those that are to be overwritten. In place of each of these
stands what is to be put there; it was below a root of some statement, and
has that one's line. What is new in the arena are the nodes that were made
for them, each for one of them, and once. -/
structure InPlace (c c' : Chunk) : Prop where
  body : c'.body = c.body
  size_le : c.arena.size ≤ c'.arena.size
  kept : ∀ i : ExprId, i.index < c.arena.size → K.here (c.arena.get i) = false →
    c'.arena.get i = c.arena.get i
  rewritten : ∃ parts : ExprId → List ExprId,
    (∀ i : ExprId, i.index < c.arena.size → K.here (c.arena.get i) →
      ∃ l s x, c.HasList l ∧ s ∈ l ∧ x ∈ s.kind.roots ∧ i ∈ c.arena.descendants x ∧
        K.form c'.arena s.line (c.arena.get i) (c'.arena.get i) (parts i)) ∧
    (((c.arena.since 0).filter fun i => K.here (c.arena.get i)).flatMap parts).Perm
      (c'.arena.since c.arena.size)

/-- A tour comes by the place of every node. -/
theorem map_fst_places_perm (h : parse tokens = .ok c) :
    ((c.tour.flatMap (Visit.places c.arena)).map Prod.fst).Perm (c.arena.since 0) := by
  have hsound := parse_chunk_sound h
  obtain ⟨rank, harena⟩ := hsound.arena
  have hnodup := parse_descendants_nodup h
  simp only [← Visit.map_fst_places, ← List.map_flatMap] at hnodup
  refine (List.perm_ext_iff_of_nodup hnodup (Arena.since_nodup _ _)).2 fun i => ?_
  rw [Arena.mem_since]
  constructor
  · intro hi
    obtain ⟨p, hp, rfl⟩ := List.mem_map.1 hi
    obtain ⟨v, hv, hp⟩ := List.mem_flatMap.1 hp
    exact ⟨Nat.zero_le _, inside_of_mem_places h hv hp⟩
  · rintro ⟨-, hi⟩
    obtain ⟨l, s, x, hl, hs, hx, hi⟩ := (parse_reaches h hi).exists_root harena.ranked
    have hvisit : Visit.root x s ∈ c.tour := (Chunk.mem_tour hsound).2 ⟨l, hl, hs, hx⟩
    exact List.mem_map.2 ⟨(i, s.line),
      List.mem_flatMap.2 ⟨_, hvisit, List.mem_map_of_mem hi⟩, rfl⟩

theorem Performs.stays (hK : K.Performs f) (x : ExprId) (owner : Stmt) (y : ExprId) (b : Block) :
    Stays (fun walk : Walk Unit Empty => walk.space.arena.body? y = some b)
      (attempt (f x owner) ()) := by
  intro walk hwalk
  have hleads : Leads (fun w (walk : Walk Unit Empty) => HasBody y b w walk.space.arena)
      (attempt (f x owner) ()) (fun _ _ => True) () walk :=
    .attempt hwalk (hK.body owner hwalk) fun _ _ => trivial
  obtain ⟨_, _, hkept, _⟩ := hleads
  exact hkept

/-- **Such a pass rewrites a parsed chunk in place.** -/
theorem Performs.inPlace (hK : K.Performs f) (h : parse tokens = .ok c) :
    K.InPlace c ((Pass.ofExpression f).run () c).chunk := by
  have hown : (K.guide c).own ⟨c.arena, ()⟩ [] := ⟨fun _ => [], .nil K c.arena _⟩
  -- the pass follows the tour to its end, which visits each place once
  obtain ⟨-, hrun⟩ := (hK.toured h).run hown
  obtain ⟨-, walk, t, hat, hvisits, hspace⟩ := hrun (by simp [guide])
  have harena : walk.space.arena = ((Pass.ofExpression f).run () c).chunk.arena :=
    congrArg Workspace.arena hspace
  have hrestores := Restores.walkBlock hK.stays (depth c)
  obtain ⟨parts, hleft⟩ := hat.own
  rw [harena, hvisits] at hleft
  have hperm := map_fst_places_perm h
  refine ⟨hrestores.block _ _, hleft.size_le, fun i hi hhere => ?_, parts, fun i hi hhere => ?_, ?_⟩
  · refine Arena.get_eq_of_hollow (harena ▸ hat.hollow i hi fun hmem => ?_) fun b hb =>
      hrestores.body i b c.body (.start ⟨c.arena, ()⟩) hb
    have htrue : K.here (c.arena.get i) = true := hmem.1
    rw [hhere] at htrue
    cases htrue
  -- every node that was there has its place, at a root
  · have hmem : i ∈ c.arena.since 0 := Arena.mem_since.2 ⟨Nat.zero_le _, hi⟩
    obtain ⟨p, hp, rfl⟩ := List.mem_map.1 (hperm.mem_iff.2 hmem)
    have hform := hleft.form p hp hhere
    obtain ⟨v, hv, hp⟩ := List.mem_flatMap.1 hp
    cases v with
    | root x s =>
      obtain ⟨l, hl, hs, hx⟩ := Chunk.hasVisit_of_mem hv
      obtain ⟨i, hbelow, rfl⟩ := List.mem_map.1 hp
      exact ⟨l, s, x, hl, hs, hx, hbelow, hform⟩
    | statement s behind => cases hp
  · refine ((hperm.symm.filter _).flatMap_right parts).trans (List.Perm.of_eq ?_)
    rw [List.filter_map, List.flatMap_map]
    exact hleft.made

end Parsed

end Rewriting

end LuaSugar
