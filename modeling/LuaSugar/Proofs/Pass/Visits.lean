import Mathlib
import LuaSugar.Proofs.Pass.Ending
import LuaSugar.Proofs.Pass.Literals
import LuaSugar.Proofs.Pass.Moves
import LuaSugar.Desugar.Intrinsic
/-!
# Which statements a walk visits

A statement list is spliced while a walk is in it. Here the walk of one
list is told again as a **loop over an index**, without a bound on its
turns and without one on how deep it goes: the list of statements, the list
of flags beside it, and for the account the list of origins. A turn skips a
flagged place, or visits a statement and goes on behind the place where the
cursor stands after its moves.

The list itself never keeps a walk from ending: it has as many visits before
it as there are positions ahead, whatever the callbacks insert. What may
keep it is a walk that it comes to before a callback, of a nested list or of
the body of a literal, and a callback may put such a list ahead. So a walk
either is a **loop** that comes to an end, or it **hangs** there, and no
depth is enough for it (`loop_or_hangs`). In both cases it has called with
positions the list had on entry, each once and in order.
-/

namespace LuaSugar

/-- A statement list under a walk: the statements, and beside each whether
it was inserted and the position it had on entry. -/
structure Listing where
  stmts : List Stmt
  fresh : List Bool
  origins : List (Option ℕ)

namespace Listing

/-- A list on entry. -/
def enter (block : Block) : Listing where
  stmts := block
  fresh := List.replicate block.length false
  origins := (List.range block.length).map some

def slots (L : Listing) : List Slot := List.zipWith Slot.mk L.stmts L.fresh

/-- The cursor on the statement at an index. -/
def cursor? (L : Listing) (i : ℕ) : Option Cursor :=
  match L.slots.drop i with
  | [] => none
  | slot :: after => some ⟨(L.slots.take i).reverse, slot, after⟩

/-- The moves of a cursor at an index: where it stands then, and what the
lists are. -/
def edit (L : Listing) (moves : List Move) (i : ℕ) : ℕ × Listing :=
  let stmts := Move.spliceAll Column.stmts moves (i, L.stmts)
  (stmts.1, ⟨stmts.2, (Move.spliceAll Column.flags moves (i, L.fresh)).2,
    (Move.spliceAll Column.origins moves (i, L.origins)).2⟩)

/-- The lists run parallel, and a flag stands exactly where a statement was
not there on entry. -/
structure Aligned (L : Listing) : Prop where
  length : L.fresh.length = L.stmts.length
  flags : L.fresh = L.origins.map Option.isNone

/-- The positions from an index on. -/
def ahead (L : Listing) (i : ℕ) : List ℕ := (L.origins.drop i).reduceOption

end Listing

namespace Pass

variable {σ ε : Type} (r : Pass σ ε)

/-- The callbacks of a pass change a list by moves of their cursor only, also
when they fail. -/
structure Moves : Prop where
  moved : ∀ c space c' space', (r.statement c).run.run space = (.ok c', space') →
    ∃ moves, c' = Move.applyAll moves c
  left : ∀ c space e space', (r.statement c).run.run space = (.error e, space') →
    ∃ moves, r.left c space = Move.applyAll moves c

/-- The walk **ends before a callback**: the nested lists of a statement and
the literals below its roots are walked, however deep that goes. -/
def Inner (s : Stmt) (walk : Walk σ ε) (s' : Stmt) (walk' : Walk σ ε) : Prop :=
  ∃ depth, r.inner (r.walkBlock depth) s walk = (s', walk') ∧ walk'.exhausted = false

/-- The walk of a list **ends**, however deep it goes, and leaves this
list. -/
def Ends (block : Block) (walk : Walk σ ε) (block' : Block) (walk' : Walk σ ε) : Prop :=
  ∃ depth, r.walkBlock depth block walk = (block', walk') ∧ walk'.exhausted = false

/-- One turn at an index, with the positions that it calls with. -/
inductive Turn : ℕ → Listing → Walk σ ε → List ℕ → ℕ → Listing → Walk σ ε → Prop
  /-- An inserted statement is skipped. -/
  | skip {i L walk} : L.fresh[i]? = some true → Turn i L walk [] (i + 1) L walk
  /-- A statement of the list on entry is visited, and called with unless
  something has failed. -/
  | visit {i L walk s s' walk₁ position c c' walk₂ moves} :
      L.fresh[i]? = some false → L.origins[i]? = some (some position) → L.stmts[i]? = some s →
      r.Inner s walk s' walk₁ →
      { L with stmts := L.stmts.set i s' }.cursor? i = some c →
      r.visit c walk₁ = (c', walk₂) → c' = Move.applyAll moves c →
      Turn i L walk (if walk₁.failure.isSome then [] else [position])
        (({ L with stmts := L.stmts.set i s' }.edit moves i).1 + 1)
        ({ L with stmts := L.stmts.set i s' }.edit moves i).2 walk₂

/-- The walk of a list by index, without a bound on its turns. -/
inductive Loop : ℕ → Listing → Walk σ ε → List ℕ → Listing → Walk σ ε → Prop
  /-- The end of the list. -/
  | finish {i L walk} : L.stmts.length ≤ i → Loop i L walk [] L walk
  | turn {i L walk calls i₁ L₁ walk₁ calls' L' walk'} :
      r.Turn i L walk calls i₁ L₁ walk₁ → Loop i₁ L₁ walk₁ calls' L' walk' →
      Loop i L walk (calls ++ calls') L' walk'

/-- The walk of a list that comes, after some turns, to a statement before
whose callback it does not end. -/
inductive Hangs : ℕ → Listing → Walk σ ε → List ℕ → Prop
  | inside {i L walk s} : walk.failure = none → L.fresh[i]? = some false →
      L.stmts[i]? = some s → (∀ s' walk', ¬ r.Inner s walk s' walk') → Hangs i L walk []
  | turn {i L walk calls i₁ L₁ walk₁ calls'} :
      r.Turn i L walk calls i₁ L₁ walk₁ → Hangs i₁ L₁ walk₁ calls' →
      Hangs i L walk (calls ++ calls')

end Pass

namespace Listing

/-! ## Parallel lists -/

theorem aligned_enter (block : Block) : (enter block).Aligned := by
  refine ⟨by simp [enter], ?_⟩
  simp [enter, Function.comp_def]

theorem ahead_enter (block : Block) : (enter block).ahead 0 = List.range block.length := by
  simp [enter, ahead, List.reduceOption]

theorem slots_enter (block : Block) : (enter block).slots = block.map fun s => ⟨s, false⟩ := by
  simp only [slots, enter]
  induction block with
  | nil => rfl
  | cons s block ih => simpa [List.replicate_succ] using ih

theorem zip_slots (slots : List Slot) :
    List.zipWith Slot.mk (slots.map Slot.stmt) (slots.map Slot.fresh) = slots := by
  induction slots with
  | nil => rfl
  | cons slot slots ih => simp [ih]

variable {L : Listing}

theorem cursor?_eq_some {i : ℕ} {c : Cursor} (hc : L.cursor? i = some c) :
    i = c.index ∧ L.slots = c.slots := by
  rw [cursor?] at hc
  cases hdrop : L.slots.drop i with
  | nil => simp [hdrop] at hc
  | cons slot after =>
    rw [hdrop] at hc
    obtain rfl := Option.some.inj hc
    have hi : i < L.slots.length := by
      have := congrArg List.length hdrop
      simp only [List.length_drop, List.length_cons] at this
      omega
    refine ⟨by simp [Cursor.index, hi.le], ?_⟩
    rw [Cursor.slots, List.reverse_reverse, ← hdrop, List.take_append_drop]

theorem cursor?_of_slots {c : Cursor} (h : L.slots = c.slots) : L.cursor? c.index = some c := by
  have hlength : c.before.reverse.length = c.index := List.length_reverse
  rw [cursor?, h, Cursor.slots, ← hlength, List.drop_left, List.take_left]
  simp

namespace Aligned

variable (h : L.Aligned)
include h

theorem stmts_eq : L.stmts = L.slots.map Slot.stmt := by
  rw [slots, List.map_zipWith]
  exact (List.map_fst_zip h.length.ge).symm.trans List.map_zip_eq_zipWith

theorem fresh_eq : L.fresh = L.slots.map Slot.fresh := by
  rw [slots, List.map_zipWith]
  exact (List.map_snd_zip h.length.le).symm.trans List.map_zip_eq_zipWith

theorem length_origins : L.origins.length = L.stmts.length := by
  rw [← h.length, h.flags, List.length_map]

/-- Another statement in a place. -/
theorem set (i : ℕ) (s : Stmt) : { L with stmts := L.stmts.set i s }.Aligned :=
  ⟨by simpa using h.length, h.flags⟩

theorem edit_fst (moves : List Move) (i : ℕ) :
    (L.edit moves i).1 = (Move.spliceAll Column.origins moves (i, L.origins)).1 :=
  (Move.spliceAll_length _ _ moves i h.length_origins.symm).1

theorem edit (moves : List Move) (i : ℕ) : (L.edit moves i).2.Aligned := by
  refine ⟨(Move.spliceAll_length _ _ moves i h.length).2, ?_⟩
  have hmap := Move.spliceAll_map Column.maps_origins moves i L.origins
  rw [← h.flags] at hmap
  exact congrArg Prod.snd hmap

/-- **Moves at an index** are moves of the zipper that stands there. -/
theorem slots_edit {i : ℕ} {c : Cursor} (hc : L.cursor? i = some c) (moves : List Move) :
    (L.edit moves i).1 = (Move.applyAll moves c).index ∧
      (L.edit moves i).2.slots = (Move.applyAll moves c).slots := by
  obtain ⟨rfl, hslots⟩ := cursor?_eq_some hc
  have hsplice := (Move.spliceAll_slots moves c).1
  have hstmts := Move.spliceAll_map Column.maps_stmts moves c.index L.slots
  have hfresh := Move.spliceAll_map Column.maps_flags moves c.index L.slots
  rw [← h.stmts_eq, hslots, hsplice] at hstmts
  rw [← h.fresh_eq, hslots, hsplice] at hfresh
  refine ⟨congrArg Prod.fst hstmts, ?_⟩
  simp only [Listing.edit, slots, hstmts, hfresh]
  exact zip_slots _

/-- **The positions at an index under moves**: the one at the cursor is
behind the cursor then, those ahead of it are ahead of it. -/
theorem ahead_edit {i position : ℕ} (hp : L.origins[i]? = some (some position))
    (moves : List Move) :
    L.ahead i = position :: (L.edit moves i).2.ahead ((L.edit moves i).1 + 1) ∧
      (L.edit moves i).2.origins.reduceOption = L.origins.reduceOption := by
  obtain ⟨hi, hget⟩ := List.getElem?_eq_some_iff.1 hp
  have hdrop := List.drop_eq_getElem_cons hi
  rw [hget] at hdrop
  have hsplit : L.origins = L.origins.take i ++ some position :: L.origins.drop (i + 1) := by
    rw [← hdrop, List.take_append_drop]
  have hlength : (L.origins.take i).length = i := List.length_take_of_le hi.le
  obtain ⟨inserted, after, hsplice, hinserted, hafter⟩ :=
    Move.spliceAll_origins moves (L.origins.take i) (L.origins.drop (i + 1)) (some position)
  rw [← hsplit, hlength] at hsplice
  have hleft : (L.edit moves i).2.origins =
      L.origins.take i ++ inserted ++ some position :: after :=
    congrArg Prod.snd hsplice
  rw [ahead, ahead, h.edit_fst, hsplice, hleft, hdrop]
  constructor
  · rw [List.drop_append, List.drop_eq_nil_of_le (Nat.le_succ _), Nat.add_sub_cancel_left]
    simp [hafter]
  · conv_rhs => rw [hsplit]
    simp only [List.reduceOption_append, hinserted, List.append_nil]
    simp [hafter]

theorem fresh_getElem? (i : ℕ) : L.fresh[i]? = L.origins[i]?.map Option.isNone := by
  conv_lhs => rw [h.flags]
  exact List.getElem?_map

theorem exists_position {i : ℕ} (hi : L.fresh[i]? = some false) :
    ∃ position, L.origins[i]? = some (some position) := by
  rw [h.fresh_getElem?] at hi
  obtain ⟨origin, horigin, hnone⟩ := Option.map_eq_some_iff.1 hi
  obtain ⟨position, rfl⟩ := Option.isSome_iff_exists.1 (by simpa using hnone)
  exact ⟨position, horigin⟩

theorem ahead_of_fresh {i : ℕ} (hi : L.fresh[i]? = some true) : L.ahead i = L.ahead (i + 1) := by
  rw [h.fresh_getElem?] at hi
  obtain ⟨origin, horigin, hnone⟩ := Option.map_eq_some_iff.1 hi
  obtain rfl := Option.isNone_iff_eq_none.1 hnone
  obtain ⟨hlt, hget⟩ := List.getElem?_eq_some_iff.1 horigin
  rw [ahead, ahead, List.drop_eq_getElem_cons hlt, hget]
  simp

/-- Where no position is ahead, all is flagged. -/
theorem fresh_of_ahead {i : ℕ} (hi : L.ahead i = []) : ∀ slot ∈ L.slots.drop i, slot.fresh := by
  obtain ⟨n, hn⟩ := List.reduceOption_eq_nil_iff _ |>.1 hi
  intro slot hslot
  have hflags : (L.slots.drop i).map Slot.fresh = List.replicate n true := by
    rw [List.map_drop, ← h.fresh_eq, h.flags, ← List.map_drop, hn]
    simp
  have hmem : slot.fresh ∈ List.replicate n true := hflags ▸ List.mem_map_of_mem hslot
  exact List.eq_of_mem_replicate hmem

/-- What an inserted slot passes on, a run of inserted slots passes on. -/
theorem skips {P : ℕ → Prop} (hP : ∀ i, L.fresh[i]? = some true → P (i + 1) → P i) :
    ∀ {behind skipped rest : List Slot}, L.slots = behind ++ skipped ++ rest →
      (∀ slot ∈ skipped, slot.fresh) → P (behind ++ skipped).length → P behind.length
  | behind, [], rest, _, _, hend => by rwa [List.append_nil] at hend
  | behind, slot :: skipped, rest, hslots, hfresh, hend => by
    rw [List.forall_mem_cons] at hfresh
    have hsplit : behind ++ slot :: skipped = behind ++ [slot] ++ skipped := by simp
    rw [hsplit] at hslots hend
    refine hP _ ?_ ?_
    · rw [h.fresh_eq, hslots]
      simp [hfresh.1]
    · have hrest := skips hP hslots hfresh.2 hend
      rwa [List.length_append] at hrest

/-- What stands at the index of a slot. -/
theorem at_focus {behind after : List Slot} {slot : Slot}
    (hslots : L.slots = behind.reverse ++ slot :: after) :
    L.fresh[behind.length]? = some slot.fresh ∧ L.stmts[behind.length]? = some slot.stmt := by
  rw [h.fresh_eq, h.stmts_eq, hslots]
  simp

/-- Another statement at the cursor. -/
theorem slots_set {behind after : List Slot} {slot : Slot}
    (hslots : L.slots = behind ++ slot :: after) (s : Stmt) :
    { L with stmts := L.stmts.set behind.length s }.slots =
      behind ++ { slot with stmt := s } :: after := by
  have hmodify := Move.modify_focus behind after slot (Column.slots.replaced s)
  have hstmts := Move.map_modify (Column.maps_stmts.replaced s) L.slots behind.length
  have hfresh := Move.map_modify (Column.maps_flags.replaced s) L.slots behind.length
  rw [← hslots] at hmodify
  rw [hmodify, ← h.stmts_eq] at hstmts
  rw [hmodify, ← h.fresh_eq] at hfresh
  have hset : L.stmts.set behind.length s = L.stmts.modify behind.length (Column.stmts.replaced s) :=
    List.set_eq_modify ..
  have hkept : L.fresh = L.fresh.modify behind.length (Column.flags.replaced s) :=
    (List.modify_id _ _).symm
  rw [slots, hset, ← hstmts]
  dsimp only
  rw [hkept, ← hfresh]
  exact zip_slots _

theorem ahead_of_end {i : ℕ} (hi : L.stmts.length ≤ i) : L.ahead i = [] := by
  rw [ahead, List.drop_eq_nil_of_le (by rwa [h.length_origins])]
  rfl

end Aligned

end Listing

namespace Pass

variable {σ ε : Type} {r : Pass σ ε}

/-! ## Walks that end agree -/

theorem inner_deepens (r : Pass σ ε) {depth depth' : ℕ} (h : depth ≤ depth') (s : Stmt) :
    Deepens (r.inner (r.walkBlock depth) s) (r.inner (r.walkBlock depth') s) :=
  .inner (r.deepens_of_le h) r s

theorem walkSlots_deepens (r : Pass σ ε) {depth depth' : ℕ} (h : depth ≤ depth') (visits : ℕ)
    (behind ahead : List Slot) : Deepens (r.walkSlots (r.walkBlock depth) visits behind ahead)
      (r.walkSlots (r.walkBlock depth') visits behind ahead) :=
  .walkSlots (r.deepens_of_le h) r visits behind ahead

/-- **What a walk leaves that ends**, it leaves at every depth that is
enough. -/
theorem Inner.at_depth {s s' : Stmt} {walk walk' : Walk σ ε} (h : r.Inner s walk s' walk') {depth : ℕ}
    (hleft : (r.inner (r.walkBlock depth) s walk).2.exhausted = false) :
    r.inner (r.walkBlock depth) s walk = (s', walk') := by
  obtain ⟨depth', hinner, hgoesOn⟩ := h
  have hleft' : (r.inner (r.walkBlock depth') s walk).2.exhausted = false := by rwa [hinner]
  rw [← hinner, ← (inner_deepens r (le_max_left depth depth') s).same walk hleft,
    (inner_deepens r (le_max_right depth depth') s).same walk hleft']

/-- A list ends in one way. -/
theorem Ends.unique {block block₁ block₂ : Block} {walk walk₁ walk₂ : Walk σ ε}
    (h₁ : r.Ends block walk block₁ walk₁) (h₂ : r.Ends block walk block₂ walk₂) :
    block₁ = block₂ ∧ walk₁ = walk₂ := by
  obtain ⟨depth₁, hleft₁, hgoesOn₁⟩ := h₁
  obtain ⟨depth₂, hleft₂, hgoesOn₂⟩ := h₂
  have hdeep₁ := r.walkBlock_of_le (le_max_left depth₁ depth₂) (by rwa [hleft₁])
  have hdeep₂ := r.walkBlock_of_le (le_max_right depth₁ depth₂) (by rwa [hleft₂])
  rw [hleft₁] at hdeep₁
  rw [hleft₂, hdeep₁] at hdeep₂
  exact Prod.mk.inj hdeep₂

/-- That a walk has failed lasts through what comes before a callback. -/
theorem Inner.failed {s s' : Stmt} {walk walk' : Walk σ ε} (h : r.Inner s walk s' walk')
    (hf : walk.failure.isSome) : walk'.failure.isSome := by
  obtain ⟨depth, hinner, -⟩ := h
  have hstays : Stays (fun walk => walk.failure.isSome) (r.inner (r.walkBlock depth) s) := by
    refine (Stays.mapBlocks ((lasting_failed r).walkBlock depth) s.kind).bind fun kind => ?_
    exact (Stays.forM fun x _ => (lasting_failed r).walkRoot ((lasting_failed r).walkBlock depth) _
      x).bind fun _ => .pure _
  have hleft := hstays walk hf
  rwa [hinner] at hleft

/-! ## What every turn leaves -/

section Turns

variable {i i₁ : ℕ} {L L₁ L' : Listing} {walk walk₁ walk' : Walk σ ε} {calls : List ℕ}

/-- After a failure nothing is called. -/
theorem Turn.failed (h : r.Turn i L walk calls i₁ L₁ walk₁) (hf : walk.failure.isSome) :
    calls = [] ∧ walk₁.failure.isSome := by
  cases h with
  | skip _ => exact ⟨rfl, hf⟩
  | visit _ _ _ hinner _ hcall =>
    have hf₁ := hinner.failed hf
    rw [Pass.visit, call_failed hf₁] at hcall
    obtain ⟨-, rfl⟩ := Prod.mk.inj hcall
    exact ⟨if_pos hf₁, hf₁⟩

/-- **A turn** calls with the next position ahead or, after a failure, with
none. It loses and reorders no position, and flags what it inserts. -/
theorem Turn.positions (h : r.Turn i L walk calls i₁ L₁ walk₁) (hL : L.Aligned) :
    L₁.Aligned ∧ L₁.origins.reduceOption = L.origins.reduceOption ∧
      (calls ++ L₁.ahead i₁ = L.ahead i ∨ calls = [] ∧ walk₁.failure.isSome) := by
  cases h with
  | skip hfresh => exact ⟨hL, rfl, .inl (hL.ahead_of_fresh hfresh).symm⟩
  | @visit _ s' walk' _ _ _ _ moves _ horigin _ _ _ hcall _ =>
    have hL₁ := hL.set i s'
    obtain ⟨hahead, horigins⟩ := hL₁.ahead_edit horigin moves
    refine ⟨hL₁.edit moves i, horigins, ?_⟩
    by_cases hf : walk'.failure.isSome
    · rw [Pass.visit, call_failed hf] at hcall
      obtain ⟨-, rfl⟩ := Prod.mk.inj hcall
      exact .inr ⟨if_pos hf, hf⟩
    · rw [if_neg hf]
      exact .inl hahead.symm

/-- After a failure nothing is called in a run either. -/
theorem Loop.failed (h : r.Loop i L walk calls L' walk') (hf : walk.failure.isSome) :
    calls = [] ∧ walk'.failure.isSome := by
  induction h with
  | finish _ => exact ⟨rfl, hf⟩
  | turn hturn _ ih =>
    obtain ⟨rfl, hf₁⟩ := hturn.failed hf
    exact ih hf₁

/-- **The loop visits the positions ahead**, in their order: all of them,
or those up to a failure. -/
theorem Loop.calls_prefix (h : r.Loop i L walk calls L' walk') (hL : L.Aligned) :
    calls <+: L.ahead i ∧ (walk'.failure = none → calls = L.ahead i) := by
  induction h with
  | finish hend => simp [hL.ahead_of_end hend]
  | turn hturn hrest ih =>
    obtain ⟨hL₁, -, hahead | ⟨rfl, hf⟩⟩ := hturn.positions hL
    · obtain ⟨hbegin, hall⟩ := ih hL₁
      rw [← hahead]
      exact ⟨(List.prefix_append_right_inj _).2 hbegin, fun hnone => by rw [hall hnone]⟩
    · obtain ⟨rfl, hf'⟩ := hrest.failed hf
      refine ⟨List.nil_prefix, fun hnone => ?_⟩
      simp [hnone] at hf'

/-- **The loop loses and reorders no position**, and flags what it inserts. -/
theorem Loop.aligned (h : r.Loop i L walk calls L' walk') (hL : L.Aligned) :
    L'.Aligned ∧ L'.origins.reduceOption = L.origins.reduceOption := by
  induction h with
  | finish _ => exact ⟨hL, rfl⟩
  | turn hturn _ ih =>
    obtain ⟨hL₁, horigins, -⟩ := hturn.positions hL
    obtain ⟨hL', horigins'⟩ := ih hL₁
    exact ⟨hL', horigins'.trans horigins⟩

/-- A walk that hangs has not failed. -/
theorem Hangs.not_failed (h : r.Hangs i L walk calls) : walk.failure = none := by
  induction h with
  | inside hnone _ _ _ => exact hnone
  | @turn i L walk _ _ _ _ _ hturn _ ih =>
    by_contra hsome
    have hf := (hturn.failed (Option.isSome_iff_ne_none.2 hsome)).2
    simp [ih] at hf

/-- **Until it hangs**, a walk visits the positions ahead in their order. -/
theorem Hangs.calls_prefix (h : r.Hangs i L walk calls) (hL : L.Aligned) : calls <+: L.ahead i := by
  induction h with
  | inside => exact List.nil_prefix
  | turn hturn hrest ih =>
    obtain ⟨hL₁, -, hahead | ⟨-, hf⟩⟩ := hturn.positions hL
    · rw [← hahead]
      exact (List.prefix_append_right_inj _).2 (ih hL₁)
    · simp [hrest.not_failed] at hf

end Turns

/-! ## The walk is the loop -/

/-- What a call leaves is what moves of the cursor lead to. -/
theorem Moves.visit (hr : r.Moves) (c : Cursor) (walk : Walk σ ε) :
    ∃ moves, (r.visit c walk).1 = Move.applyAll moves c := by
  rw [Pass.visit, call_eq]
  by_cases hf : walk.failure.isSome
  · rw [if_pos hf]
    exact ⟨[], by rw [Move.applyAll]⟩
  · rw [if_neg hf]
    rcases hcall : (r.statement c).run walk.space with ⟨e | c', space⟩
    · exact hr.left c walk.space e space hcall
    · exact hr.moved c walk.space c' space hcall

/-- Behind the last position only inserted statements are left. -/
theorem Loop.at_end {L : Listing} {behind ahead : List Slot} (hL : L.Aligned)
    (hslots : L.slots = behind ++ ahead) (hfresh : ∀ slot ∈ ahead, slot.fresh)
    (walk : Walk σ ε) : r.Loop behind.length L walk [] L walk := by
  rw [← List.append_nil (behind ++ ahead)] at hslots
  refine hL.skips (P := fun i => r.Loop i L walk [] L walk) (fun i hi => .turn (.skip hi)) hslots
    hfresh (.finish ?_)
  rw [hL.stmts_eq, hslots]
  simp

/-- A visit leads the loop to where the walk goes on, with one position less
ahead. -/
theorem exists_turn (hr : r.Moves) {L : Listing} (hL : L.Aligned) {done after : List Slot}
    {slot : Slot} (hsplit : L.slots = done.reverse ++ slot :: after) (hvisited : ¬ slot.fresh)
    {s : Stmt} {c : Cursor} {walk walk₁ walk₂ : Walk σ ε} (hinner : r.Inner slot.stmt walk s walk₁)
    (hcall : r.visit ⟨done, { slot with stmt := s }, after⟩ walk₁ = (c, walk₂)) :
    ∃ (calls : List ℕ) (L₁ : Listing), L₁.Aligned ∧
      L₁.slots = (c.focus :: c.before).reverse ++ c.after ∧
      (L₁.ahead (c.focus :: c.before).length).length + 1 = (L.ahead done.length).length ∧
      r.Turn done.length L walk calls (c.focus :: c.before).length L₁ walk₂ := by
  obtain ⟨moves, hmoves⟩ := hr.visit ⟨done, { slot with stmt := s }, after⟩ walk₁
  rw [hcall] at hmoves
  obtain ⟨hfresh, hstmt⟩ := hL.at_focus hsplit
  rw [Bool.eq_false_of_not_eq_true hvisited] at hfresh
  obtain ⟨position, horigin⟩ := hL.exists_position hfresh
  have hL₁ := hL.set done.length s
  have hslots := hL.slots_set hsplit s
  rw [List.length_reverse] at hslots
  have hcursor : ({ L with stmts := L.stmts.set done.length s } : Listing).cursor? done.length =
      some ⟨done, { slot with stmt := s }, after⟩ :=
    Listing.cursor?_of_slots (c := ⟨done, _, after⟩) hslots
  obtain ⟨hindex, hslots'⟩ := hL₁.slots_edit hcursor moves
  rw [← hmoves] at hindex hslots'
  have hahead := (hL₁.ahead_edit horigin moves).1
  have hplace : ({ L with stmts := L.stmts.set done.length s }.edit moves done.length).1 + 1 =
      (c.focus :: c.before).length := by rw [hindex]; rfl
  rw [← hplace]
  refine ⟨_, _, hL₁.edit moves done.length, by rw [hslots']; simp [Cursor.slots], ?_,
    .visit hfresh horigin hstmt hinner hcursor hcall hmoves⟩
  rw [show L.ahead done.length = _ from hahead]
  rfl

theorem visit_exhausted (r : Pass σ ε) (c : Cursor) (walk : Walk σ ε) :
    (r.visit c walk).2.exhausted = walk.exhausted :=
  call_exhausted _ c _ walk

section Visit

variable {enter : Block → StateM (Walk σ ε) Block} {visits depth : ℕ} {s s' : Stmt} {c : Cursor}
variable {skipped behind after : List Slot} {walk walk₁ walk₂ : Walk σ ε}

/-- **A visit** in the walk of a list, and what the walk goes on from. -/
theorem walkSlots_of_visit (hskipped : ∀ slot ∈ skipped, slot.fresh)
    (hinner : r.inner enter s walk = (s', walk₁))
    (hcall : r.visit ⟨skipped.reverse ++ behind, ⟨s', false⟩, after⟩ walk₁ = (c, walk₂)) :
    r.walkSlots enter (visits + 1) behind (skipped ++ ⟨s, false⟩ :: after) walk =
      r.walkSlots enter visits (c.focus :: c.before) c.after walk₂ := by
  rw [walkSlots_visit hskipped]
  simp only [bind, StateT.bind, hinner, hcall]

/-- Where the walk is exhausted before the callback, it stays so. -/
theorem walkSlots_exhausted (hskipped : ∀ slot ∈ skipped, slot.fresh)
    (hinner : (r.inner (r.walkBlock depth) s walk).2.exhausted = true) :
    (r.walkSlots (r.walkBlock depth) (visits + 1) behind (skipped ++ ⟨s, false⟩ :: after)
      walk).2.exhausted = true := by
  have hlasting := lasting_exhausted r
  rw [walkSlots_visit hskipped]
  exact ((hlasting.statement _).bind fun c =>
    hlasting.walkSlots (hlasting.walkBlock depth) visits (c.focus :: c.before) c.after) _ hinner

end Visit

/-- **The walk of a list** is a run of the loop that comes to an end, and is
left by the walk that is deep enough; or it hangs, and no walk is. The
induction is on the positions ahead, of which every visit takes one. -/
theorem loop_or_hangs (hr : r.Moves) : ∀ (visits : ℕ) (behind ahead : List Slot) (L : Listing)
    (walk : Walk σ ε), walk.exhausted = false → L.Aligned → L.slots = behind.reverse ++ ahead →
    (L.ahead behind.length).length ≤ visits →
    (∃ calls L' walk' depth, r.Loop behind.length L walk calls L' walk' ∧
      r.walkSlots (r.walkBlock depth) visits behind ahead walk = (L'.slots, walk') ∧
      walk'.exhausted = false) ∨
    ∃ calls, r.Hangs behind.length L walk calls ∧ ∀ depth,
      (r.walkSlots (r.walkBlock depth) visits behind ahead walk).2.exhausted = true := by
  intro visits
  induction visits with
  | zero =>
    intro behind ahead L walk hgoesOn hL hslots hcount
    have hfresh := hL.fresh_of_ahead (List.eq_nil_of_length_eq_zero (Nat.le_zero.1 hcount))
    rw [hslots, ← List.length_reverse, List.drop_left] at hfresh
    have hend : r.Loop _ L walk [] L walk := Loop.at_end hL hslots hfresh walk
    rw [List.length_reverse] at hend
    exact .inl ⟨[], L, walk, 0, hend, by rw [hslots]; rfl, hgoesOn⟩
  | succ visits ih =>
    intro behind ahead L walk hgoesOn hL hslots hcount
    rcases ahead_cases ahead with hfresh | ⟨skipped, stmt, after, rfl, hskipped⟩
    · have hend : r.Loop _ L walk [] L walk := Loop.at_end hL hslots hfresh walk
      rw [List.length_reverse] at hend
      refine .inl ⟨[], L, walk, 0, hend, ?_, hgoesOn⟩
      rw [walkSlots_skip hfresh, hslots]
      rfl
    · rw [← List.append_assoc] at hslots
      -- the inserted slots in front are skipped
      have hskips {P : ℕ → Prop} (hP : ∀ i, L.fresh[i]? = some true → P (i + 1) → P i)
          (hend : P (skipped.reverse ++ behind).length) : P behind.length := by
        have h := hL.skips hP hslots hskipped
        simp only [List.length_append, List.length_reverse] at h hend
        exact h (by rwa [add_comm])
      have hskip := hskips (P := fun i => L.ahead i = L.ahead (skipped.reverse ++ behind).length)
        (fun i hi hrest => (hL.ahead_of_fresh hi).trans hrest) rfl
      have hdone : L.slots = (skipped.reverse ++ behind).reverse ++ ⟨stmt, false⟩ :: after := by
        rw [hslots, List.reverse_append, List.reverse_reverse]
      have hloop {calls L' walk'} (h : r.Loop (skipped.reverse ++ behind).length L walk calls L'
          walk') : r.Loop behind.length L walk calls L' walk' :=
        hskips (P := fun i => r.Loop i L walk calls L' walk') (fun i hi => .turn (.skip hi)) h
      have hhangs {calls} (h : r.Hangs (skipped.reverse ++ behind).length L walk calls) :
          r.Hangs behind.length L walk calls :=
        hskips (P := fun i => r.Hangs i L walk calls) (fun i hi => .turn (.skip hi)) h
      by_cases hends : ∃ s walk₁, r.Inner stmt walk s walk₁
      · obtain ⟨s, walk₁, hinner⟩ := hends
        rcases hcall : r.visit ⟨skipped.reverse ++ behind, ⟨s, false⟩, after⟩ walk₁ with ⟨c, walk₂⟩
        obtain ⟨calls, L₁, hL₁, hslots₁, hahead, hturn⟩ :=
          exists_turn hr hL hdone Bool.false_ne_true hinner hcall
        have hgoesOn₂ : walk₂.exhausted = false := by
          have hsame := r.visit_exhausted ⟨skipped.reverse ++ behind, ⟨s, false⟩, after⟩ walk₁
          obtain ⟨_, -, hgoesOn₁⟩ := hinner
          rw [hcall] at hsame
          exact hsame.trans hgoesOn₁
        rw [hskip, ← hahead] at hcount
        obtain ⟨calls', L', walk', depth, hrun, hleft, hgoesOn'⟩ | ⟨calls', hrun, hexhausted⟩ :=
          ih (c.focus :: c.before) c.after L₁ walk₂ hgoesOn₂ hL₁ hslots₁
            (Nat.le_of_succ_le_succ hcount)
        · -- both parts are left at the greater of their depths
          obtain ⟨depth₁, hinner₁, hgoesOn₁⟩ := hinner
          have hinner' := (inner_deepens r (le_max_left depth₁ depth) stmt).same walk
            (by rwa [hinner₁])
          have hleft' := (walkSlots_deepens r (le_max_right depth₁ depth) visits
            (c.focus :: c.before) c.after).same walk₂ (by rwa [hleft])
          refine .inl ⟨calls ++ calls', L', walk', max depth₁ depth, hloop (.turn hturn hrun), ?_,
            hgoesOn'⟩
          rw [walkSlots_of_visit hskipped (hinner'.trans hinner₁) hcall, hleft', hleft]
        · refine .inr ⟨calls ++ calls', hhangs (.turn hturn hrun), fun depth => ?_⟩
          cases hleft : (r.inner (r.walkBlock depth) stmt walk).2.exhausted with
          | true => exact walkSlots_exhausted hskipped hleft
          | false =>
            rw [walkSlots_of_visit hskipped (hinner.at_depth hleft) hcall]
            exact hexhausted depth
      · have hexhausted (depth : ℕ) : (r.inner (r.walkBlock depth) stmt walk).2.exhausted = true := by
          by_contra hleft
          exact hends ⟨_, _, depth, rfl, Bool.eq_false_of_not_eq_true hleft⟩
        obtain ⟨hfresh, hstmt⟩ := hL.at_focus hdone
        refine .inr ⟨[], hhangs (.inside ?_ hfresh hstmt fun s walk₁ h => hends ⟨s, walk₁, h⟩),
          fun depth => walkSlots_exhausted hskipped (hexhausted depth)⟩
        by_contra hsome
        obtain ⟨depth, hleft⟩ := r.inner_failed stmt (Option.isSome_iff_ne_none.2 hsome) hgoesOn
        rw [hexhausted depth] at hleft
        cases hleft

end Pass

/-! ## Traversal under edits -/

/-- **A walk visits the positions of a list, and the body of a function
literal at most once.** Callbacks edit a list by moves of their cursor. Then
the walk of the list ends, unless a walk that it comes to before a callback
does not. It calls with the positions the list had on entry, each once and
in order, up to a failure; the flags stay beside the statements, exactly at
those that were inserted, and the positions stay in their order. A walk that
does not end has called likewise until it hangs. And no walk enters a
function literal twice, at whatever depth. -/
theorem Pass.traversal_under_edits {σ ε : Type} (r : Pass σ ε) (hr : r.Moves) :
    (∀ (block : Block) (walk : Walk σ ε), walk.exhausted = false →
      (∃ calls L walk', r.Loop 0 (Listing.enter block) walk calls L walk' ∧
        (∀ block' left, r.Ends block walk block' left ↔ block' = L.stmts ∧ left = walk') ∧
        (∃ depth slots, r.walkSlots (r.walkBlock depth) block.length []
            (block.map fun s => ⟨s, false⟩) walk = (slots, walk') ∧
          slots.map Slot.stmt = L.stmts ∧ slots.map Slot.fresh = L.fresh) ∧
        calls <+: List.range block.length ∧
        (walk'.failure = none → calls = List.range block.length) ∧
        L.fresh.length = L.stmts.length ∧ L.fresh = L.origins.map Option.isNone ∧
        L.origins.reduceOption = List.range block.length) ∨
      ∃ calls, r.Hangs 0 (Listing.enter block) walk calls ∧
        (∀ block' left, ¬ r.Ends block walk block' left) ∧ calls <+: List.range block.length) ∧
    ∀ (depth : ℕ) (block : Block) (walk : Walk σ ε),
      let recorded := r.recordBlock depth block (walk, [])
      (recorded.1, recorded.2.1) = r.walkBlock depth block walk ∧ recorded.2.2.Nodup := by
  refine ⟨fun block walk hgoesOn => ?_, fun depth block walk => ?_⟩
  · have hL := Listing.aligned_enter block
    have hahead := Listing.ahead_enter block
    obtain ⟨calls, L, walk', depth, hloop, hslots, hleft⟩ | ⟨calls, hhangs, hexhausted⟩ :=
      loop_or_hangs hr block.length [] (block.map fun s => ⟨s, false⟩) (Listing.enter block) walk
        hgoesOn hL (Listing.slots_enter block) (by rw [List.length_nil, hahead, List.length_range])
    · obtain ⟨hbegin, hall⟩ := hloop.calls_prefix hL
      obtain ⟨hL', horigins⟩ := hloop.aligned hL
      rw [List.length_nil, hahead] at hbegin hall
      have hends : r.Ends block walk L.stmts walk' := by
        refine ⟨depth + 1, ?_, hleft⟩
        rw [hL'.stmts_eq]
        exact congrArg (fun left => (left.1.map Slot.stmt, left.2)) hslots
      refine .inl ⟨calls, L, walk', hloop, fun block' left => ⟨fun h => h.unique hends, ?_⟩,
        ⟨depth, L.slots, hslots, hL'.stmts_eq.symm, hL'.fresh_eq.symm⟩, hbegin, hall, hL'.length,
        hL'.flags, horigins.trans hahead⟩
      rintro ⟨rfl, rfl⟩
      exact hends
    · have hbegin := hhangs.calls_prefix hL
      rw [List.length_nil, hahead] at hbegin
      refine .inr ⟨calls, hhangs, ?_, hbegin⟩
      rintro block' left ⟨depth, hblock', hleft⟩
      -- one list deeper the walk would be the same, but there it hangs
      have hdeeper := r.walkBlock_of_le (Nat.le_succ depth) (by rwa [hblock'])
      have hhung : (r.walkBlock (depth + 1) block walk).2.exhausted = true := hexhausted depth
      rw [hdeeper, hblock', hleft] at hhung
      cases hhung
  · obtain ⟨hvalue, hwalk, hnodup, -⟩ :=
      recordBlock_relates (r := r) depth block walk (walk, []) ⟨rfl, List.nodup_nil, by simp⟩
    exact ⟨Prod.ext hvalue hwalk, hnodup⟩

/-! ## The intrinsics of this library -/

namespace Edit

variable {σ ε α β : Type}

/-- Every answer of an edit is one of these. -/
def Answers (m : Edit σ ε α) (Q : α → Prop) : Prop :=
  ∀ space v space', m.run.run space = (.ok v, space') → Q v

theorem Answers.pure {v : α} {Q : α → Prop} (h : Q v) : Answers (Pure.pure v : Edit σ ε α) Q := by
  intro space v' space' hrun
  obtain ⟨hv, -⟩ := Prod.mk.inj hrun
  exact Except.ok.inj hv ▸ h

theorem Answers.throw {e : ε} {Q : α → Prop} : Answers (throw e : Edit σ ε α) Q := by
  intro space v space' hrun
  cases congrArg Prod.fst hrun

theorem Answers.bind {m : Edit σ ε α} {f : α → Edit σ ε β} {P : α → Prop} {Q : β → Prop}
    (hm : Answers m P) (hf : ∀ v, P v → Answers (f v) Q) : Answers (m >>= f) Q := by
  intro space v space' hrun
  have hbind := run_bind m f space
  rcases hfirst : m.run space with ⟨e | v₁, space₁⟩
  · rw [hfirst] at hbind
    cases congrArg Prod.fst (hbind.symm.trans hrun)
  · rw [hfirst] at hbind
    exact hf v₁ (hm space v₁ space₁ hfirst) space₁ v space' (hbind.symm.trans hrun)

theorem Answers.then {m : Edit σ ε α} {f : α → Edit σ ε β} {Q : β → Prop}
    (hf : ∀ v, Answers (f v) Q) : Answers (m >>= f) Q :=
  Answers.bind (P := fun _ => True) (fun _ _ _ _ => trivial) fun v _ => hf v

end Edit

open Edit Move

/-- A pass that fails before it edits a list moves its cursor, if its answers
do. -/
theorem Pass.FailsFirst.moves {σ ε : Type} {r : Pass σ ε} (h : r.FailsFirst)
    (hr : ∀ c, Answers (r.statement c) fun c' => ∃ moves, c' = applyAll moves c) : r.Moves :=
  ⟨hr, fun c space _ _ _ => ⟨[], by rw [h, applyAll]⟩⟩

theorem Intrinsic.decorateNext_moves (line : ℕ) (intrinsic : ExprId) (args : List ExprId)
    (next : Cursor) : Answers (Intrinsic.decorateNext line intrinsic args next)
      fun left => ∃ moves, left.1 = applyAll moves next := by
  rw [Intrinsic.decorateNext]
  split
  · exact .then fun call => .pure ⟨[.insertAfter _], rfl⟩
  · refine .then fun target => ?_
    split
    · exact .then fun call => .pure ⟨[.replace _], rfl⟩
    · exact .pure ⟨[.remove], rfl⟩
  · refine .then fun target => .then fun call => ?_
    exact .pure ⟨[.replace _], rfl⟩
  · exact .throw

theorem Intrinsic.moves : Intrinsic.pass.Moves := by
  refine Pass.FailsFirst.moves (fun _ _ => rfl) fun c => ?_
  simp only [Intrinsic.pass, Pass.ofStatement]
  split
  · cases hnext : c.next? with
    | none => exact .throw
    | some next =>
      refine .bind (decorateNext_moves _ _ _ next) fun left hleft => ?_
      obtain ⟨moves, hmoves⟩ := hleft
      refine .pure ⟨[.following moves, .replace left.2], ?_⟩
      simp only [applyAll, apply, hnext, hmoves]
  · exact .pure ⟨[], rfl⟩

/-- `@d local a; break`: the call that the intrinsic puts behind the
declaration is the only one that is not visited. -/
theorem Pass.traversal_of_intrinsic :
    let block : Block :=
      [⟨.intrinsic ⟨0⟩ [], 1⟩, .localDecl ["a"] [] 2, ⟨.break_, 3⟩]
    let walk : Walk Unit IntrinsicError := .start ⟨⟨#[.atom (.name "d")]⟩, ()⟩
    Intrinsic.pass.Moves ∧ walk.exhausted = false ∧ ∃ L left,
      Intrinsic.pass.Loop 0 (Listing.enter block) walk [0, 1, 2] L left ∧
        Intrinsic.pass.Ends block walk L.stmts left ∧
        L.fresh = [false, false, true, false] ∧ L.origins.reduceOption = [0, 1, 2] := by
  intro block walk
  have hends : ∃ block' left, Intrinsic.pass.Ends block walk block' left ∧ left.failure = none :=
    ⟨_, _, ⟨2, rfl, by cbv⟩, by cbv⟩
  obtain ⟨block', left, hends, hnone⟩ := hends
  refine ⟨Intrinsic.moves, rfl, ?_⟩
  obtain ⟨calls, L, left', hloop, hiff, ⟨depth, slots, hslots, -, hfresh⟩, -, hall, -, -, horigins⟩ |
    ⟨_, -, hnever, -⟩ := (traversal_under_edits _ Intrinsic.moves).1 block walk rfl
  · obtain ⟨rfl, rfl⟩ := (hiff block' left).1 hends
    obtain rfl := hall hnone
    -- the slots are those at depth one
    have hdeeper := (walkSlots_deepens Intrinsic.pass (Nat.le_add_left 1 depth) block.length []
      (block.map fun s => ⟨s, false⟩)).same walk (by cbv)
    have hsame := (walkSlots_deepens Intrinsic.pass (Nat.le_add_right depth 1) block.length []
      (block.map fun s => ⟨s, false⟩)).same walk
        (by rw [hslots]; exact hends.elim fun _ h => h.2)
    rw [hdeeper, hslots] at hsame
    refine ⟨L, left, hloop, hends, ?_, horigins⟩
    have hslots₁ : _ = slots := congrArg Prod.fst hsame
    rw [← hfresh, ← hslots₁]
    cbv
  · exact absurd hends (hnever block' left)

/-! ## What keeps a walk from all positions -/

namespace Pass

/-- A list of which the callback below makes a longer way: `return`, and an
ignored statement. -/
def endlessList : Block := [.ret [] 1, .ignore 1]

/-- Behind a `return` the following statement is replaced, by `do` with the
list from which that began. -/
def endless : Pass Unit Empty := .ofStatement fun cursor =>
  match cursor.stmt.kind with
  | .ret _ => pure (Move.applyAll [.following [.replace ⟨.doBlock endlessList, 1⟩]] cursor)
  | _ => pure cursor

theorem endless_moves : endless.Moves := by
  refine FailsFirst.moves (fun _ _ => rfl) fun c => ?_
  simp only [endless, ofStatement]
  split
  · exact .pure ⟨_, rfl⟩
  · exact .pure ⟨[], by rw [applyAll]⟩

/-- **No depth is enough** for the list that is put ahead again and again. -/
theorem endless_exhausted : ∀ (depth : ℕ) (walk : Walk Unit Empty), walk.failure = none →
    (endless.walkBlock depth endlessList walk).2.exhausted = true := by
  intro depth
  induction depth with
  | zero => exact fun walk _ => by rw [walkBlock, endlessList, passOver_cons]
  | succ depth ih =>
    intro walk hnone
    obtain ⟨space, seen, failure, exhausted⟩ := walk
    obtain rfl : failure = none := hnone
    generalize hwalk : (⟨space, seen, none, exhausted⟩ : Walk Unit Empty) = walk at *
    let next : Stmt := ⟨.doBlock endlessList, 1⟩
    have hinner : endless.inner (endless.walkBlock depth) (.ret [] 1) walk = (.ret [] 1, walk) := rfl
    have hcall : endless.visit ⟨[], ⟨.ret [] 1, false⟩, [⟨.ignore 1, false⟩]⟩ walk =
        (⟨[], ⟨.ret [] 1, false⟩, [⟨next, false⟩]⟩, walk) := by
      have hmoved : applyAll [.following [.replace next]]
          ⟨[], ⟨.ret [] 1, false⟩, [⟨.ignore 1, false⟩]⟩ =
            ⟨[], ⟨.ret [] 1, false⟩, [⟨next, false⟩]⟩ := by
        simp [applyAll, apply, Cursor.next?, Cursor.replace, Cursor.backTo, Cursor.index]
      rw [← hmoved, ← hwalk]
      rfl
    have hlist : (endless.inner (endless.walkBlock depth) next walk).2.exhausted = true :=
      ih walk (by rw [← hwalk])
    have hnothing : ∀ slot ∈ ([] : List Slot), slot.fresh := by simp
    have hslots : endless.walkSlots (endless.walkBlock depth) 2 []
        [⟨.ret [] 1, false⟩, ⟨.ignore 1, false⟩] walk =
          endless.walkSlots (endless.walkBlock depth) 1 [⟨.ret [] 1, false⟩] [⟨next, false⟩] walk :=
      walkSlots_of_visit hnothing hinner hcall
    have hrest : (endless.walkSlots (endless.walkBlock depth) 1 [⟨.ret [] 1, false⟩]
        [⟨next, false⟩] walk).2.exhausted = true := walkSlots_exhausted hnothing hlist
    exact (congrArg (fun left => left.2.exhausted) hslots).trans hrest

/-- A pass that fails at once, but not without inserting a statement. -/
def quitting : Pass Unit Unit where
  statement _ := throw ()
  expression _ _ := pure ()
  left cursor _ := cursor.insertBefore (.ignore 1)

theorem quitting_moves : quitting.Moves :=
  ⟨fun _ => Answers.throw, fun c _ _ _ _ =>
    ⟨[.insertBefore (.ignore 1)], by simp [quitting, applyAll, apply]⟩⟩

/-- **Moves alone do not lead a walk to all positions.** One that puts the
list it is in ahead again does not end; and one that fails calls with no
position after that, while what it inserted stays. -/
theorem traversal_broken_off :
    (endless.Moves ∧ ∀ block left, ¬ endless.Ends endlessList (.start ⟨⟨#[]⟩, ()⟩) block left) ∧
    quitting.Moves ∧ ∃ L left,
      quitting.Loop 0 (Listing.enter [.ignore 1, .ignore 2]) (.start ⟨⟨#[]⟩, ()⟩) [0] L left ∧
        quitting.Ends [.ignore 1, .ignore 2] (.start ⟨⟨#[]⟩, ()⟩) L.stmts left ∧
        L.fresh = [true, false, false] := by
  let start : Walk Unit Unit := .start ⟨⟨#[]⟩, ()⟩
  let failed : Walk Unit Unit := { start with failure := some () }
  let L : Listing :=
    ⟨[.ignore 1, .ignore 1, .ignore 2], [true, false, false], [none, some 0, some 1]⟩
  refine ⟨⟨endless_moves, ?_⟩, quitting_moves, L, failed, ?_, ⟨1, rfl, rfl⟩, rfl⟩
  · rintro block left ⟨depth, hblock, hends⟩
    have hexhausted := endless_exhausted depth (.start ⟨⟨#[]⟩, ()⟩) rfl
    rw [hblock, hends] at hexhausted
    cases hexhausted
  · have hfirst : quitting.Inner (.ignore 1) start (.ignore 1) start := ⟨0, rfl, rfl⟩
    have hsecond : quitting.Inner (.ignore 2) failed (.ignore 2) failed := ⟨0, rfl, rfl⟩
    have hturn : quitting.Turn 0 (Listing.enter [.ignore 1, .ignore 2]) start [0] 2 L failed :=
      .visit rfl rfl rfl hfirst rfl rfl (show _ = applyAll [.insertBefore (.ignore 1)] _ from rfl)
    have hturn' : quitting.Turn 2 L failed [] 3 L failed :=
      .visit rfl rfl rfl hsecond rfl rfl (show _ = applyAll [] _ from rfl)
    exact .turn hturn (.turn hturn' (.finish (by decide)))

end Pass

end LuaSugar
