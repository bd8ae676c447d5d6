import Mathlib
import LuaSugar.Proofs.Syntax.Growth
import LuaSugar.Proofs.Syntax.Load
import LuaSugar.Proofs.Pass.Building
/-!
# What becomes of every list

A pass over statements that only builds nodes is known by its **rule**: what
a callback leaves in place of a statement, and what it leaves ahead of it.
From the rule of one callback comes what a whole run makes of every list,
those nested in statements and the bodies of function literals included.

The account of a run is its **progress**: the arena without the bodies
under way, the body that each literal had before its visit, and what was
seen, walked and visited by now. It only grows, and what it says of a list
lasts. A list and what became of it are told by `Progress.Turns`, one
statement at a time: the statement as it is after the walk of its own
lists, what the rule made of it, and then the slots that the rule left
ahead.
-/

namespace LuaSugar

/-- The slots of a list on entry. -/
def Block.slots (block : Block) : List Slot := block.map fun s => ⟨s, false⟩

/-- The statement lists of a chunk: its body, the lists in their statements,
and the bodies of the literals below their roots. -/
inductive Chunk.HasList (c : Chunk) : Block → Prop
  | body : c.HasList c.body
  | nested {l s b} : c.HasList l → s ∈ l → b ∈ s.kind.blocks → c.HasList b
  | literal {l s x y b} : c.HasList l → s ∈ l → x ∈ s.kind.roots → y ∈ c.arena.descendants x →
      c.arena.body? y = some b → c.HasList b

namespace Arena

variable {a b : Arena} {level : ExprId → ℕ} {x y : ExprId} {e : Expr}

/-! ## Layers

What the walk needs of the way down from a root: children are in the
arena, their own children no further than the arena is large, and no
literal below them is deeper than it is below their parents. -/

structure Layered (a : Arena) (level : ExprId → ℕ) : Prop where
  inside : ∀ i, ∀ j ∈ (a.get i).children, j.index < a.size
  level : ∀ i, ∀ j ∈ (a.get i).children, level j ≤ level i
  height : ∃ h : ExprId → ℕ, (∀ i, h i ≤ a.size) ∧ ∀ i, ∀ j ∈ (a.get i).children, h j < h i

namespace Layered

theorem of_hollow (h : a.Layered level) (hsize : b.size = a.size)
    (hhollow : ∀ i, (b.get i).hollow = (a.get i).hollow) : b.Layered level := by
  have hchildren (i : ExprId) : (b.get i).children = (a.get i).children :=
    children_of_hollow (hhollow i)
  obtain ⟨height, hle, hlt⟩ := h.height
  refine ⟨fun i j hj => ?_, fun i j hj => h.level i j (hchildren i ▸ hj),
    height, fun i => hsize ▸ hle i, fun i j hj => hlt i j (hchildren i ▸ hj)⟩
  exact hsize ▸ h.inside i j (hchildren i ▸ hj)

/-- A new node above nodes of the arena. -/
theorem alloc (h : a.Layered level) (hinside : ∀ j ∈ e.children, j.index < a.size) {n : ℕ}
    (hlevel : ∀ j ∈ e.children, level j ≤ n) :
    (a.alloc e).2.Layered (Function.update level ⟨a.size⟩ n) := by
  obtain ⟨height, hle, hlt⟩ := h.height
  have hne {j : ExprId} (hj : j.index < a.size) : j ≠ ⟨a.size⟩ := by
    rintro rfl
    exact lt_irrefl _ hj
  -- a node is one of the old ones, with its children, or the new one
  have hcases {P : ExprId → ExprId → Prop} (hold : ∀ i ≠ ⟨a.size⟩, ∀ j ∈ (a.get i).children, P i j)
      (hnew : ∀ j ∈ e.children, P ⟨a.size⟩ j) :
      ∀ i, ∀ j ∈ ((a.alloc e).2.get i).children, P i j := by
    intro i j hj
    by_cases hi : i = ⟨a.size⟩
    · subst hi
      rw [get_alloc_self] at hj
      exact hnew j hj
    · rw [(get_alloc_cases a e i).resolve_right fun h => hi h.1] at hj
      exact hold i hi j hj
  refine ⟨hcases (fun i _ j hj => ?_) fun j hj => ?_, hcases (fun i hi j hj => ?_) fun j hj => ?_,
    Function.update height ⟨a.size⟩ (a.size + 1), fun i => ?_,
    hcases (fun i hi j hj => ?_) fun j hj => ?_⟩
  · exact (h.inside i j hj).trans (size_lt_alloc a e)
  · exact (hinside j hj).trans (size_lt_alloc a e)
  · rw [Function.update_of_ne hi, Function.update_of_ne (hne (h.inside i j hj))]
    exact h.level i j hj
  · rw [Function.update_self, Function.update_of_ne (hne (hinside j hj))]
    exact hlevel j hj
  · rw [size_alloc, Function.update_apply]
    split
    · exact le_rfl
    · exact (hle i).trans (Nat.le_succ _)
  · rw [Function.update_of_ne hi, Function.update_of_ne (hne (h.inside i j hj))]
    exact hlt i j hj
  · rw [Function.update_self, Function.update_of_ne (hne (hinside j hj))]
    exact Nat.lt_succ_of_le (hle j)

/-- **Descendants** hold their children. -/
theorem children_mem_descendants (h : a.Layered level) (hy : y ∈ a.descendants x) :
    ∀ j ∈ (a.get y).children, j ∈ a.descendants x := by
  obtain ⟨height, hle, hlt⟩ := h.height
  have hself {n : ℕ} {i : ExprId} (hn : 0 < n) : i ∈ a.descendantsWithin n i := by
    obtain ⟨n, rfl⟩ := Nat.exists_eq_succ_of_ne_zero hn.ne'
    simp [descendantsWithin]
  have hwithin : ∀ {n : ℕ} {x : ExprId}, height x < n → y ∈ a.descendantsWithin n x →
      ∀ j ∈ (a.get y).children, j ∈ a.descendantsWithin n x := by
    intro n
    induction n with
    | zero => intro x hx; omega
    | succ n ih =>
      intro x hx hy j hj
      rw [descendantsWithin, List.mem_append, List.mem_flatMap, List.mem_singleton] at hy ⊢
      rcases hy with ⟨c, hc, hy⟩ | rfl
      · have := hlt x c hc
        exact .inl ⟨c, hc, ih (by omega) hy j hj⟩
      · have := hlt y j hj
        exact .inl ⟨j, hj, hself (by omega)⟩
  exact hwithin (Nat.lt_succ_of_le (hle x)) hy

theorem descendants_inside (h : a.Layered level) (hx : x.index < a.size)
    (hy : y ∈ a.descendants x) : y.index < a.size ∧ level y ≤ level x := by
  refine mem_of_mem_descendants (S := {y | y.index < a.size ∧ level y ≤ level x})
    (fun i hi c hc => ⟨h.inside i c hc, (h.level i c hc).trans hi.2⟩) ⟨hx, le_rfl⟩ hy

end Layered

end Arena

/-! ## Progress -/

/-- How far a walk has come. -/
structure Progress where
  /-- The nodes, the bodies under way emptied. -/
  arena : Arena
  /-- How many lists deep the literals below an id go. -/
  level : ExprId → ℕ
  /-- The body of a literal before its visit. -/
  origin : ExprId → Block
  /-- Literals whose visit has begun. -/
  seen : Set ExprId
  /-- Literals whose visit is over. -/
  walked : Set ExprId
  /-- The ids at and below the roots that were visited. -/
  visited : Set ExprId
  /-- A callback has failed. -/
  failed : Prop

namespace Progress

/-- What a callback makes of a statement and the slots ahead: the statements
that it leaves in place of that one, and the slots that it leaves ahead. -/
abbrev Rule := Progress → Stmt → List Slot → List Stmt → List Slot → Prop

variable {rule : Rule} {w w' : Progress} {d n : ℕ} {s : Stmt} {i x y : ExprId} {e : Expr}

/-- Progress is not taken back, and nothing that was there changes but for
the bodies of literals that have not had their visit. -/
structure Before (w w' : Progress) : Prop where
  size : w.arena.size ≤ w'.arena.size
  hollow : ∀ i : ExprId, i.index < w.arena.size →
    (w'.arena.get i).hollow = (w.arena.get i).hollow
  level : ∀ i : ExprId, i.index < w.arena.size → w'.level i = w.level i
  origin : ∀ i : ExprId, i.index < w.arena.size → w'.origin i = w.origin i
  seen : w.seen ⊆ w'.seen
  walked : w.walked ⊆ w'.walked
  visited : w.visited ⊆ w'.visited
  kept : ∀ i ∈ w.walked, w'.arena.get i = w.arena.get i
  failed : w.failed → w'.failed

instance : Preorder Progress where
  le := Before
  le_refl w := ⟨le_rfl, fun _ _ => rfl, fun _ _ => rfl, fun _ _ => rfl, subset_rfl, subset_rfl,
    subset_rfl, fun _ _ => rfl, id⟩
  le_trans w w' w'' h h' := ⟨h.size.trans h'.size,
    fun i hi => (h'.hollow i (hi.trans_le h.size)).trans (h.hollow i hi),
    fun i hi => (h'.level i (hi.trans_le h.size)).trans (h.level i hi),
    fun i hi => (h'.origin i (hi.trans_le h.size)).trans (h.origin i hi),
    h.seen.trans h'.seen, h.walked.trans h'.walked, h.visited.trans h'.visited,
    fun i hi => (h'.kept i (h.walked hi)).trans (h.kept i hi), fun hf => h'.failed (h.failed hf)⟩

/-- A node that was there, except for the body of a literal, which had that
body before its visit. -/
structure Node (w : Progress) (i : ExprId) (e : Expr) : Prop where
  inside : i.index < w.arena.size
  hollow : (w.arena.get i).hollow = e.hollow
  origin : ∀ func, e = .atom (.func func) → w.origin i = func.body

theorem Node.mono (h : w ≤ w') (hi : w.Node i e) : w'.Node i e :=
  ⟨hi.inside.trans_le h.size, (h.hollow i hi.inside).trans hi.hollow, fun func hfunc =>
    (h.origin i hi.inside).trans (hi.origin func hfunc)⟩

/-- An id that may be followed from within `d` lists. -/
structure Near (w : Progress) (d : ℕ) (x : ExprId) : Prop where
  inside : x.index < w.arena.size
  level : w.level x ≤ d

theorem Near.mono (h : w ≤ w') (hx : w.Near d x) : w'.Near d x :=
  ⟨hx.inside.trans_le h.size, (h.level x hx.inside).trans_le hx.level⟩

theorem Near.deeper (hx : w.Near n x) (hle : n ≤ d) : w.Near d x := ⟨hx.inside, hx.level.trans hle⟩

/-- A statement that a walk `d` lists deep can visit. -/
def Todo (w : Progress) : ℕ → Stmt → Prop
  | 0, _ => False
  | d + 1, s => (∀ x ∈ s.kind.roots, w.Near d x) ∧ ∀ b ∈ s.kind.blocks, ∀ t ∈ b, w.Todo d t

theorem Todo.mono (h : w ≤ w') : ∀ {d : ℕ} {s : Stmt}, w.Todo d s → w'.Todo d s
  | _ + 1, _, hs => ⟨fun x hx => (hs.1 x hx).mono h, fun b hb t ht => (hs.2 b hb t ht).mono h⟩

theorem Todo.deeper : ∀ {n d : ℕ} {s : Stmt}, w.Todo n s → n ≤ d → w.Todo d s
  | n + 1, d + 1, _, hs, hle =>
    ⟨fun x hx => (hs.1 x hx).deeper (by omega),
      fun b hb t ht => (hs.2 b hb t ht).deeper (by omega)⟩

/-- A slot ahead: a statement to be visited, or an inserted one, which has no
lists. -/
def Awaits (w : Progress) (d : ℕ) (slot : Slot) : Prop :=
  if slot.fresh then slot.stmt.kind.blocks = [] else w.Todo (d + 1) slot.stmt

theorem Awaits.mono (h : w ≤ w') {slot : Slot} (hs : w.Awaits d slot) : w'.Awaits d slot := by
  unfold Awaits at *
  split
  · rwa [if_pos ‹_›] at hs
  · rw [if_neg ‹_›] at hs
    exact hs.mono h

/-- A statement without lists. -/
theorem Awaits.of_roots {fresh : Bool} (hblocks : s.kind.blocks = [])
    (hroots : ∀ x ∈ s.kind.roots, w.Near d x) : w.Awaits d ⟨s, fresh⟩ := by
  cases fresh with
  | true => exact hblocks
  | false => exact ⟨hroots, by simp [hblocks]⟩

/-- The lists of what is awaited. -/
theorem Awaits.nested {slot : Slot} (hs : w.Awaits d slot) {b : Block}
    (hb : b ∈ slot.stmt.kind.blocks) : ∀ t ∈ b, w.Todo d t := by
  obtain ⟨s, fresh⟩ := slot
  cases fresh with
  | true =>
    have hblocks : s.kind.blocks = [] := hs
    simp [hblocks] at hb
  | false => exact hs.2 b hb

/-- What the rule says lasts. -/
structure Rule.Lasts (rule : Rule) : Prop where
  mono : ∀ {w w' : Progress} {s ahead made ahead'}, w ≤ w' →
    rule w s ahead made ahead' → rule w' s ahead made ahead'

/-- The rule, as long as nothing has failed; after that statements stay. -/
def Rule.Acts (rule : Rule) : Rule := fun w s ahead made ahead' =>
  rule w s ahead made ahead' ∨ w.failed ∧ made = [s] ∧ ahead' = ahead

theorem Rule.Lasts.acts (h : rule.Lasts) : rule.Acts.Lasts := by
  refine ⟨fun hle hacts => ?_⟩
  rcases hacts with hrule | ⟨hfailed, hmade⟩
  · exact .inl (h.mono hle hrule)
  · exact .inr ⟨hle.failed hfailed, hmade⟩

/-- **What becomes of slots**: inserted statements stay as they are; the
others are walked, their own lists first, and then the rule acts. -/
inductive Turns (rule : Rule) (w : Progress) : List Slot → Block → Prop
  | nil : Turns rule w [] []
  | inserted {s ahead out} : Turns rule w ahead out →
      Turns rule w (⟨s, true⟩ :: ahead) (s :: out)
  | visited {s s' ahead made ahead' out} :
      s'.line = s.line → s'.kind.hollow = s.kind.hollow →
      (∀ p ∈ s.kind.blocks.zip s'.kind.blocks, Turns rule w (Block.slots p.1) p.2) →
      (∀ x ∈ s.kind.roots, x ∈ w.visited) → rule.Acts w s' ahead made ahead' →
      Turns rule w ahead' out → Turns rule w (⟨s, false⟩ :: ahead) (made ++ out)

theorem Turns.mono (hlasts : rule.Lasts) (h : w ≤ w') {slots : List Slot} {out : Block}
    (ht : w.Turns rule slots out) : w'.Turns rule slots out := by
  induction ht with
  | nil => exact .nil
  | inserted _ ih => exact .inserted ih
  | visited hline hhollow _ hroots hacts _ ihblocks ih =>
    exact .visited hline hhollow ihblocks (fun x hx => h.visited (hroots x hx))
      (hlasts.acts.mono h hacts) ih

/-- Inserted slots in front stay as they are. -/
theorem Turns.skip {skipped ahead : List Slot} {out : Block} (hfresh : ∀ slot ∈ skipped, slot.fresh)
    (h : w.Turns rule ahead out) :
    w.Turns rule (skipped ++ ahead) (skipped.map Slot.stmt ++ out) := by
  induction skipped with
  | nil => exact h
  | cons slot skipped ih =>
    rw [List.forall_mem_cons] at hfresh
    obtain ⟨s, fresh⟩ := slot
    obtain rfl : fresh = true := hfresh.1
    exact .inserted (ih hfresh.2)

/-- And so they were before. -/
theorem Turns.of_inserted {inserted : Block} {ahead : List Slot} {out : Block}
    (h : w.Turns rule (inserted.map (fun s => ⟨s, true⟩) ++ ahead) out) :
    ∃ out', out = inserted ++ out' ∧ w.Turns rule ahead out' := by
  induction inserted generalizing out with
  | nil => exact ⟨out, rfl, h⟩
  | cons s inserted ih =>
    cases h with
    | inserted h =>
      obtain ⟨out', rfl, hahead⟩ := ih h
      exact ⟨out', rfl, hahead⟩

/-- What a progress says of its arena. Literals have the body they had
until their visit begins, and from its end on what became of it. -/
structure Good (rule : Rule) (w : Progress) : Prop where
  layered : w.arena.Layered w.level
  unseen : ∀ i body, i ∉ w.seen → w.arena.body? i = some body →
    body = w.origin i ∧ ∀ s ∈ body, w.Todo (w.level i) s
  walked : ∀ i ∈ w.walked, i ∈ w.seen ∧
    ∃ body, w.arena.body? i = some body ∧ w.Turns rule (Block.slots (w.origin i)) body
  visited : ∀ i ∈ w.visited, i.index < w.arena.size ∧
    (∀ j ∈ (w.arena.get i).children, j ∈ w.visited) ∧ (w.arena.body? i ≠ none → i ∈ w.seen)

/-- What was seen below a root stays so. -/
theorem mem_seen_mono (h : w ≤ w') (hx : x.index < w.arena.size)
    (hseen : w.arena.body? x ≠ none → x ∈ w.seen) : w'.arena.body? x ≠ none → x ∈ w'.seen := by
  intro hbody
  exact h.seen (hseen fun hnone => hbody (Arena.body?_of_hollow (h.hollow x hx) hnone))

namespace Good

variable (hlasts : rule.Lasts)

theorem inside_of_walked (h : w.Good rule) (hi : i ∈ w.walked) : i.index < w.arena.size := by
  obtain ⟨-, body, hbody, -⟩ := h.walked i hi
  exact Arena.inside_of_body? hbody

include hlasts in
/-- Walked literals stay walked. -/
theorem walked_mono (h : w.Good rule) (hle : w ≤ w') (hi : i ∈ w.walked) : i ∈ w'.seen ∧
    ∃ body, w'.arena.body? i = some body ∧ w'.Turns rule (Block.slots (w'.origin i)) body := by
  obtain ⟨hseen, body, hbody, hturns⟩ := h.walked i hi
  refine ⟨hle.seen hseen, body, ?_, ?_⟩
  · rwa [Arena.body?, hle.kept i hi]
  · rw [hle.origin i (h.inside_of_walked hi)]
    exact hturns.mono hlasts hle

theorem visited_mono (h : w.Good rule) (hle : w ≤ w') (hi : i ∈ w.visited) :
    i.index < w'.arena.size ∧ (∀ j ∈ (w'.arena.get i).children, j ∈ w'.visited) ∧
      (w'.arena.body? i ≠ none → i ∈ w'.seen) := by
  obtain ⟨hinside, hchildren, hseen⟩ := h.visited i hi
  refine ⟨hinside.trans_le hle.size, fun j hj => hle.visited (hchildren j ?_),
    mem_seen_mono hle hinside hseen⟩
  rwa [← Arena.children_of_hollow (hle.hollow i hinside)]

/-! ### Steps of a walk -/

include hlasts in
/-- **A new node** behind the others. -/
theorem alloc (h : w.Good rule) (hinside : ∀ j ∈ e.children, j.index < w.arena.size) {n : ℕ}
    (hlevel : ∀ j ∈ e.children, w.level j ≤ n)
    (hbody : ∀ func, e = .atom (.func func) → ∀ s ∈ func.body, w.Todo n s) :
    ∃ w', w ≤ w' ∧ w'.Good rule ∧ w'.arena = (w.arena.alloc e).2 ∧ w'.seen = w.seen ∧
      w'.walked = w.walked ∧ w'.failed = w.failed ∧ w'.Node ⟨w.arena.size⟩ e ∧
      w'.level ⟨w.arena.size⟩ = n := by
  let new : ExprId := ⟨w.arena.size⟩
  let a := (w.arena.alloc e).2
  let w' : Progress :=
    { w with
      arena := a
      level := Function.update w.level new n
      origin := Function.update w.origin new ((a.body? new).getD []) }
  have hne {j : ExprId} (hj : j.index < w.arena.size) : j ≠ new := by
    rintro rfl
    exact lt_irrefl _ hj
  have hget {j : ExprId} (hj : j.index < w.arena.size) : a.get j = w.arena.get j :=
    Arena.get_alloc_of_lt e hj
  have hself : a.get new = e := Arena.get_alloc_self _ _
  have hle : w ≤ w' := by
    refine ⟨(Arena.size_lt_alloc _ _).le, fun j hj => ?_, fun j hj => ?_, fun j hj => ?_,
      subset_rfl, subset_rfl, subset_rfl, fun j hj => hget (h.inside_of_walked hj), id⟩
    · exact congrArg Expr.hollow (hget hj)
    · exact Function.update_of_ne (hne hj) _ _
    · exact Function.update_of_ne (hne hj) _ _
  refine ⟨w', hle, ⟨h.layered.alloc hinside hlevel, fun i body hi hbody' => ?_,
    fun i hi => h.walked_mono hlasts hle hi, fun i hi => h.visited_mono hle hi⟩, rfl, rfl, rfl, rfl,
    ⟨Arena.size_lt_alloc _ _, congrArg Expr.hollow hself, ?_⟩, Function.update_self _ _ _⟩
  · -- the new literal is unseen; it has the body it is made with
    by_cases hnew : i = new
    · subst hnew
      obtain ⟨func, hfunc, rfl⟩ := Arena.body?_eq_some.1 hbody'
      refine ⟨by simp [w', show a.body? new = _ from hbody'], fun s hs => ?_⟩
      rw [show w'.level new = n from Function.update_self _ _ _]
      exact (hbody func (hself ▸ hfunc) s hs).mono hle
    · have hold : a.get i = w.arena.get i :=
        (Arena.get_alloc_cases _ e i).resolve_right fun h => hnew h.1
      have hbody₀ : w.arena.body? i = some body := by
        rwa [Arena.body?, ← hold]
      obtain ⟨horigin, htodo⟩ := h.unseen i body hi hbody₀
      have hi₀ := Arena.inside_of_body? hbody₀
      rw [hle.origin i hi₀, hle.level i hi₀]
      exact ⟨horigin, fun s hs => (htodo s hs).mono hle⟩
  · rintro func rfl
    show Function.update w.origin new ((a.body? new).getD []) new = func.body
    rw [Function.update_self]
    simp [Arena.body?, hself]

include hlasts in
/-- **A body is taken out** for the visit of its literal. -/
theorem take (h : w.Good rule) {x : ExprId} (hx : x ∉ w.seen) :
    ∃ w', w ≤ w' ∧ w'.Good rule ∧ w'.arena = w.arena.setBody x [] ∧ w'.seen = insert x w.seen ∧
      w'.walked = w.walked ∧ w'.failed = w.failed ∧ w'.origin = w.origin := by
  have hwalked : ∀ i ∈ w.walked, i ≠ x := fun i hi hix => hx (hix ▸ (h.walked i hi).1)
  let w' : Progress := { w with arena := w.arena.setBody x [], seen := insert x w.seen }
  have hle : w ≤ w' := ⟨(Arena.size_setBody _ _ _).ge, fun i _ => Arena.hollow_setBody _ _ _ i,
    fun _ _ => rfl, fun _ _ => rfl, Set.subset_insert _ _, subset_rfl, subset_rfl,
    fun i hi => Arena.get_setBody_of_ne _ (hwalked i hi), id⟩
  refine ⟨w', hle, ⟨h.layered.of_hollow (Arena.size_setBody _ _ _) (Arena.hollow_setBody _ _ _),
    fun i body hi hbody => ?_, fun i hi => h.walked_mono hlasts hle hi,
    fun i hi => h.visited_mono hle hi⟩, rfl, rfl, rfl, rfl, rfl⟩
  have hix : i ≠ x := fun hix => hi (.inl hix)
  obtain ⟨horigin, htodo⟩ := h.unseen i body (fun hseen => hi (.inr hseen))
    (by rwa [Arena.body?, ← Arena.get_setBody_of_ne (a := w.arena) [] hix])
  exact ⟨horigin, fun s hs => (htodo s hs).mono hle⟩

include hlasts in
/-- **What became of it is put back.** -/
theorem put (h : w.Good rule) {x : ExprId} {origin body : Block} (hseen : x ∈ w.seen)
    (hwalked : x ∉ w.walked) (hfunc : w.arena.body? x ≠ none) (horigin : w.origin x = origin)
    (hturns : w.Turns rule (Block.slots origin) body) :
    ∃ w', w ≤ w' ∧ w'.Good rule ∧ w'.arena = w.arena.setBody x body ∧ w'.seen = w.seen ∧
      w'.walked = insert x w.walked ∧ w'.failed = w.failed := by
  let w' : Progress := { w with arena := w.arena.setBody x body, walked := insert x w.walked }
  have hle : w ≤ w' := ⟨(Arena.size_setBody _ _ _).ge, fun i _ => Arena.hollow_setBody _ _ _ i,
    fun _ _ => rfl, fun _ _ => rfl, subset_rfl, Set.subset_insert _ _, subset_rfl,
    fun i hi => Arena.get_setBody_of_ne _ fun hix => hwalked (hix ▸ hi), id⟩
  refine ⟨w', hle, ⟨h.layered.of_hollow (Arena.size_setBody _ _ _) (Arena.hollow_setBody _ _ _),
    fun i body' hi hbody => ?_, ?_, fun i hi => h.visited_mono hle hi⟩, rfl, rfl, rfl, rfl⟩
  · have hix : i ≠ x := fun hix => hi (hix ▸ hseen)
    obtain ⟨hbody', htodo⟩ := h.unseen i body' hi
      (by rwa [Arena.body?, ← Arena.get_setBody_of_ne (a := w.arena) body hix])
    exact ⟨hbody', fun s hs => (htodo s hs).mono hle⟩
  · rintro i (rfl | hi)
    · exact ⟨hseen, body, Arena.body?_setBody_self hfunc, horigin ▸ hturns.mono hlasts hle⟩
    · exact h.walked_mono hlasts hle hi

include hlasts in
/-- **What is below a root** is visited once its literals are seen. -/
theorem visit (h : w.Good rule) {D : Set ExprId}
    (hD : ∀ i ∈ D, i.index < w.arena.size ∧ (∀ j ∈ (w.arena.get i).children, j ∈ D) ∧
      (w.arena.body? i ≠ none → i ∈ w.seen)) :
    ∃ w', w ≤ w' ∧ w'.Good rule ∧ w'.arena = w.arena ∧ w'.seen = w.seen ∧
      w'.walked = w.walked ∧ w'.failed = w.failed ∧ D ⊆ w'.visited := by
  let w' : Progress := { w with visited := w.visited ∪ D }
  have hle : w ≤ w' := ⟨le_rfl, fun _ _ => rfl, fun _ _ => rfl, fun _ _ => rfl, subset_rfl,
    subset_rfl, Set.subset_union_left, fun _ _ => rfl, id⟩
  refine ⟨w', hle, ⟨h.layered, fun i body hi hbody => ?_, fun i hi => h.walked_mono hlasts hle hi,
    ?_⟩, rfl, rfl, rfl, rfl, Set.subset_union_right⟩
  · obtain ⟨horigin, htodo⟩ := h.unseen i body hi hbody
    exact ⟨horigin, fun s hs => (htodo s hs).mono hle⟩
  · rintro i (hi | hi)
    · exact h.visited_mono hle hi
    · obtain ⟨hinside, hchildren, hseen⟩ := hD i hi
      exact ⟨hinside, fun j hj => .inr (hchildren j hj), hseen⟩

include hlasts in
/-- **A callback fails.** -/
theorem fail (h : w.Good rule) :
    ∃ w', w ≤ w' ∧ w'.Good rule ∧ w'.arena = w.arena ∧ w'.seen = w.seen ∧
      w'.walked = w.walked ∧ w'.failed := by
  let w' : Progress := { w with failed := True }
  have hle : w ≤ w' := ⟨le_rfl, fun _ _ => rfl, fun _ _ => rfl, fun _ _ => rfl, subset_rfl,
    subset_rfl, subset_rfl, fun _ _ => rfl, fun _ => trivial⟩
  refine ⟨w', hle, ⟨h.layered, fun i body hi hbody => ?_, fun i hi => h.walked_mono hlasts hle hi,
    fun i hi => h.visited_mono hle hi⟩, rfl, rfl, rfl, trivial⟩
  obtain ⟨horigin, htodo⟩ := h.unseen i body hi hbody
  exact ⟨horigin, fun s hs => (htodo s hs).mono hle⟩

end Good

end Progress

end LuaSugar
