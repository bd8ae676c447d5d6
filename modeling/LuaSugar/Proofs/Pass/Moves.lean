import Mathlib
import LuaSugar.Pass.Cursor
/-!
# Moves of a cursor

What a callback does with its cursor is a finite sequence of **moves**:
insertions, replacements and removals at the cursor, and moves of the
cursor on the following statement. On the zipper a move is a step of the
cursor; read by index, it splices every list that runs parallel to the
statements, each at the same place. The two readings agree
(`slots_applyAll`), and they agree for whatever is kept beside the
statements (`spliceAll_map`).

Beside the flags of the slots this is used for their **origins**: the
position that a slot had when the walk entered the list, and none for an
inserted one. Moves insert slots without origin, and lose or reorder
none (`spliceAll_origins`).
-/

namespace LuaSugar

/-- One thing that a callback does with its cursor. -/
inductive Move
  | insertBefore (s : Stmt)
  | insertAfter (s : Stmt)
  | replace (s : Stmt)
  /-- Take the statement out, to keep it or not; an ignored one is left. -/
  | remove
  /-- What is done with the cursor on the following statement, if there is
  one. -/
  | following (moves : List Move)

/-- A list that runs parallel to the statements: what stands beside a
statement that is inserted, replaced or removed. -/
structure Column (α : Type) where
  inserted : Stmt → α
  replaced : Stmt → α → α
  removed : α → α

namespace Column

def stmts : Column Stmt := ⟨id, fun s _ => s, fun old => .ignore old.line⟩

def flags : Column Bool := ⟨fun _ => true, fun _ flag => flag, id⟩

def slots : Column Slot :=
  ⟨fun s => ⟨s, true⟩, fun s slot => { slot with stmt := s },
    fun slot => { slot with stmt := .ignore slot.stmt.line }⟩

/-- Where slots come from: the position a slot had on entry. -/
def origins : Column (Option ℕ) := ⟨fun _ => none, fun _ origin => origin, id⟩

/-- One column can be read off the other. -/
structure Maps {α β : Type} (f : α → β) (k : Column α) (k' : Column β) : Prop where
  inserted : ∀ s, f (k.inserted s) = k'.inserted s
  replaced : ∀ s v, f (k.replaced s v) = k'.replaced s (f v)
  removed : ∀ v, f (k.removed v) = k'.removed (f v)

/-- The statements of slots move as the slots do. -/
theorem maps_stmts : Maps Slot.stmt slots stmts := ⟨fun _ => rfl, fun _ _ => rfl, fun _ => rfl⟩

/-- So do the flags, -/
theorem maps_flags : Maps Slot.fresh slots flags := ⟨fun _ => rfl, fun _ _ => rfl, fun _ => rfl⟩

/-- and flags tell whether a place has an origin. -/
theorem maps_origins : Maps Option.isNone origins flags :=
  ⟨fun _ => rfl, fun _ _ => rfl, fun _ => rfl⟩

/-- Every column has the length of the others. -/
theorem maps_unit {α : Type} (k : Column α) :
    Maps (fun _ => ()) k ⟨fun _ => (), fun _ _ => (), fun _ => ()⟩ :=
  ⟨fun _ => rfl, fun _ _ => rfl, fun _ => rfl⟩

end Column

namespace Move

/-! ## The two readings -/

mutual

/-- A move as a step of the cursor. -/
def apply : Move → Cursor → Cursor
  | .insertBefore s, c => c.insertBefore s
  | .insertAfter s, c => c.insertAfter s
  | .replace s, c => c.replace s
  | .remove, c => c.remove
  | .following moves, c =>
    match c.next? with
    | none => c
    | some next => (applyAll moves next).backTo c.index

def applyAll : List Move → Cursor → Cursor
  | [], c => c
  | move :: moves, c => applyAll moves (move.apply c)

end

mutual

/-- A move by index: where the cursor stands then, and what becomes of a
list beside the statements. -/
def splice {α : Type} (k : Column α) : Move → ℕ × List α → ℕ × List α
  | .insertBefore s, (i, l) => (i + 1, l.insertIdx i (k.inserted s))
  | .insertAfter s, (i, l) => (i, l.insertIdx (i + 1) (k.inserted s))
  | .replace s, (i, l) => (i, l.modify i (k.replaced s))
  | .remove, (i, l) => (i, l.modify i k.removed)
  | .following moves, (i, l) =>
    if i + 1 < l.length then (i, (spliceAll k moves (i + 1, l)).2) else (i, l)

def spliceAll {α : Type} (k : Column α) : List Move → ℕ × List α → ℕ × List α
  | [], p => p
  | move :: moves, p => spliceAll k moves (move.splice k p)

end

/-! ## Columns -/

section Columns

variable {α β : Type}

/-- A change of one item goes through a map. -/
theorem map_modify {f : α → β} {g : α → α} {g' : β → β} (h : ∀ v, f (g v) = g' (f v)) (l : List α)
    (i : ℕ) : (l.modify i g).map f = (l.map f).modify i g' := by
  refine List.ext_getElem? fun n => ?_
  rw [List.getElem?_map, List.getElem?_modify, List.getElem?_modify, List.getElem?_map]
  cases l[n]? with
  | none => rfl
  | some v =>
    by_cases hn : i = n
    · simp [hn, h]
    · simp [hn]

variable {f : α → β} {k : Column α} {k' : Column β}

mutual

/-- **Columns move alike**: a move of one is the image of a move of the other. -/
theorem splice_map (hf : Column.Maps f k k') : ∀ (move : Move) (i : ℕ) (l : List α),
    move.splice k' (i, l.map f) = ((move.splice k (i, l)).1, (move.splice k (i, l)).2.map f)
  | .insertBefore s, i, l => by simp only [splice, List.map_insertIdx, hf.inserted]
  | .insertAfter s, i, l => by simp only [splice, List.map_insertIdx, hf.inserted]
  | .replace s, i, l => by simp only [splice, map_modify (hf.replaced s)]
  | .remove, i, l => by simp only [splice, map_modify hf.removed]
  | .following moves, i, l => by
    simp only [splice, List.length_map]
    split
    · rw [spliceAll_map hf moves (i + 1) l]
    · rfl

/-- **What can be read off a list beside the statements can be read off
it after the moves.** -/
theorem spliceAll_map (hf : Column.Maps f k k') :
    ∀ (moves : List Move) (i : ℕ) (l : List α), spliceAll k' moves (i, l.map f) =
      ((spliceAll k moves (i, l)).1, (spliceAll k moves (i, l)).2.map f)
  | [], i, l => by simp only [spliceAll]
  | move :: moves, i, l => by
    simp only [spliceAll]
    rw [splice_map hf move i l]
    exact spliceAll_map hf moves _ _

end

omit f k k' in
/-- Lists of one length are spliced alike. -/
theorem spliceAll_length (k : Column α) (k' : Column β) (moves : List Move) (i : ℕ) {l : List α}
    {l' : List β} (h : l.length = l'.length) :
    (spliceAll k moves (i, l)).1 = (spliceAll k' moves (i, l')).1 ∧
      (spliceAll k moves (i, l)).2.length = (spliceAll k' moves (i, l')).2.length := by
  have hmap := spliceAll_map k.maps_unit moves i l
  have hmap' := spliceAll_map k'.maps_unit moves i l'
  have hunit : l.map (fun _ => ()) = l'.map fun _ => () := by
    rw [List.map_const', List.map_const', h]
  rw [hunit, hmap', Prod.mk.injEq] at hmap
  refine ⟨hmap.1.symm, ?_⟩
  simpa using congrArg List.length hmap.2.symm

end Columns

/-! ## Splicing at a place

Between what stands before the cursor and what stands after it. -/

section Splits

variable {α : Type} (before after : List α) (focus v : α)

/-- What is inserted before the focus. -/
theorem insertIdx_focus :
    (before ++ focus :: after).insertIdx before.length v = before ++ v :: focus :: after :=
  List.modifyTailIdx_add (List.cons v) 0 before (focus :: after)

/-- What is inserted behind it. -/
theorem insertIdx_after :
    (before ++ focus :: after).insertIdx (before.length + 1) v = before ++ focus :: v :: after :=
  List.modifyTailIdx_add (List.cons v) 1 before (focus :: after)

theorem modify_focus (g : α → α) :
    (before ++ focus :: after).modify before.length g = before ++ g focus :: after :=
  List.modifyTailIdx_add (List.modifyHead g) 0 before (focus :: after)

end Splits

/-- Going back to the focus passes what was inserted before it. -/
theorem backTo_index (before inserted after : List Slot) (focus slot : Slot) :
    Cursor.backTo before.length ⟨inserted ++ focus :: before, slot, after⟩ =
      ⟨before, focus, inserted.reverse ++ slot :: after⟩ := by
  induction inserted generalizing slot after with
  | nil =>
    rw [List.nil_append, Cursor.backTo, if_neg (lt_irrefl _)]
    cases before with
    | nil => rw [Cursor.backTo]; rfl
    | cons first before => rw [Cursor.backTo, if_pos (by simp)]; rfl
  | cons first inserted ih =>
    rw [List.cons_append, Cursor.backTo, if_neg (by simp; omega), ih]
    simp

/-! ## The zipper and the lists -/

mutual

/-- **A move of a cursor is a move of its slots**, and what stands before it is not taken away. -/
theorem splice_slots : ∀ (move : Move) (c : Cursor),
    move.splice Column.slots (c.index, c.slots) = ((move.apply c).index, (move.apply c).slots) ∧
      ∃ inserted, (move.apply c).before = inserted ++ c.before
  | .insertBefore s, c => by
    refine ⟨?_, [⟨s, true⟩], rfl⟩
    have h := insertIdx_focus c.before.reverse c.after c.focus ⟨s, true⟩
    rw [List.length_reverse] at h
    simp only [splice, apply, Cursor.index, Cursor.slots, Column.slots, h]
    simp [Cursor.insertBefore]
  | .insertAfter s, c => by
    refine ⟨?_, [], rfl⟩
    have h := insertIdx_after c.before.reverse c.after c.focus ⟨s, true⟩
    rw [List.length_reverse] at h
    simp only [splice, apply, Cursor.index, Cursor.slots, Column.slots, h]
    simp [Cursor.insertAfter]
  | .replace s, c => by
    refine ⟨?_, [], rfl⟩
    have h := modify_focus c.before.reverse c.after c.focus (Column.slots.replaced s)
    rw [List.length_reverse] at h
    simp only [splice, apply, Cursor.index, Cursor.slots, h]
    simp [Cursor.replace, Column.slots]
  | .remove, c => by
    refine ⟨?_, [], rfl⟩
    have h := modify_focus c.before.reverse c.after c.focus Column.slots.removed
    rw [List.length_reverse] at h
    simp only [splice, apply, Cursor.index, Cursor.slots, h]
    simp [Cursor.remove, Cursor.replace, Cursor.line, Cursor.stmt, Column.slots]
  | .following moves, ⟨before, focus, []⟩ => by
    refine ⟨?_, [], by simp [apply, Cursor.next?]⟩
    rw [splice, if_neg (by simp [Cursor.index, Cursor.slots])]
    simp only [apply, Cursor.next?]
  -- the moves at the next slot may insert before it, and what they insert
  -- stands behind the focus again
  | .following moves, ⟨before, focus, slot :: after⟩ => by
    obtain ⟨hsplice, inserted, hbefore⟩ := spliceAll_slots moves ⟨focus :: before, slot, after⟩
    have happly : apply (.following moves) ⟨before, focus, slot :: after⟩ =
        ⟨before, focus, inserted.reverse ++
          (applyAll moves ⟨focus :: before, slot, after⟩).focus ::
            (applyAll moves ⟨focus :: before, slot, after⟩).after⟩ := by
      rw [← backTo_index, ← hbefore]
      simp only [apply, Cursor.next?, Cursor.index]
    refine ⟨?_, [], by rw [happly]; rfl⟩
    have hslots : (⟨before, focus, slot :: after⟩ : Cursor).slots =
        (⟨focus :: before, slot, after⟩ : Cursor).slots := by
      simp [Cursor.slots]
    rw [splice, if_pos (by simp [Cursor.index, Cursor.slots]), hslots]
    rw [show (⟨before, focus, slot :: after⟩ : Cursor).index + 1 =
      (⟨focus :: before, slot, after⟩ : Cursor).index from rfl, hsplice, happly]
    simp [Cursor.index, Cursor.slots, hbefore]

/-- **The zipper is the list spliced by index**: moves of the cursor splice
its slots where the cursor stands, and do not touch the slots that stood
before it. -/
theorem spliceAll_slots : ∀ (moves : List Move) (c : Cursor),
    spliceAll Column.slots moves (c.index, c.slots) =
        ((applyAll moves c).index, (applyAll moves c).slots) ∧
      ∃ inserted, (applyAll moves c).before = inserted ++ c.before
  | [], c => ⟨by simp only [spliceAll, applyAll], [], by simp only [applyAll, List.nil_append]⟩
  | move :: moves, c => by
    obtain ⟨hmove, inserted, hbefore⟩ := splice_slots move c
    obtain ⟨hmoves, inserted', hbefore'⟩ := spliceAll_slots moves (move.apply c)
    refine ⟨?_, inserted' ++ inserted, ?_⟩
    · simp only [spliceAll, applyAll, hmove, hmoves]
    · simp only [applyAll, hbefore', hbefore, List.append_assoc]

end

/-! ## Origins -/

/-- An origin in front changes nothing behind it. -/
theorem reduceOption_cons (origin : Option ℕ) {l l' : List (Option ℕ)}
    (h : l'.reduceOption = l.reduceOption) :
    (origin :: l').reduceOption = (origin :: l).reduceOption := by
  cases origin with
  | none => simpa using h
  | some position => simpa using h

mutual

/-- **A move keeps origins in order**: what it inserts has none, and what it
replaces keeps its own. -/
theorem splice_origins : ∀ (move : Move) (before after : List (Option ℕ)) (focus : Option ℕ),
    ∃ inserted after', move.splice Column.origins (before.length, before ++ focus :: after) =
        ((before ++ inserted).length, before ++ inserted ++ focus :: after') ∧
      inserted.reduceOption = [] ∧ after'.reduceOption = after.reduceOption
  | .insertBefore s, before, after, focus => by
    refine ⟨[none], after, ?_, rfl, rfl⟩
    simp [splice, insertIdx_focus, Column.origins]
  | .insertAfter s, before, after, focus => by
    refine ⟨[], none :: after, ?_, rfl, by simp⟩
    simp [splice, insertIdx_after, Column.origins]
  | .replace s, before, after, focus => by
    refine ⟨[], after, ?_, rfl, rfl⟩
    simp [splice, modify_focus, Column.origins]
  | .remove, before, after, focus => by
    refine ⟨[], after, ?_, rfl, rfl⟩
    simp [splice, Column.origins]
  | .following moves, before, [], focus => by
    refine ⟨[], [], ?_, rfl, rfl⟩
    rw [splice, if_neg (by simp)]
    simp
  | .following moves, before, origin :: after, focus => by
    obtain ⟨inserted, after', hsplice, hinserted, hafter⟩ :=
      spliceAll_origins moves (before ++ [focus]) after origin
    refine ⟨[], inserted ++ origin :: after', ?_, rfl, ?_⟩
    · rw [List.append_assoc, List.singleton_append, List.length_append, List.length_singleton] at hsplice
      rw [splice, if_pos (by simp), hsplice]
      simp
    · rw [List.reduceOption_append, hinserted, List.nil_append]
      exact reduceOption_cons origin hafter

/-- **Moves keep the origins in their order**: what they insert before or
after the cursor has none, and the slot at the cursor stays there. -/
theorem spliceAll_origins : ∀ (moves : List Move) (before after : List (Option ℕ))
    (focus : Option ℕ), ∃ inserted after',
      spliceAll Column.origins moves (before.length, before ++ focus :: after) =
        ((before ++ inserted).length, before ++ inserted ++ focus :: after') ∧
      inserted.reduceOption = [] ∧ after'.reduceOption = after.reduceOption
  | [], before, after, focus => ⟨[], after, by simp [spliceAll], rfl, rfl⟩
  | move :: moves, before, after, focus => by
    obtain ⟨inserted, after₁, hmove, hinserted, hafter⟩ := splice_origins move before after focus
    obtain ⟨inserted', after₂, hmoves, hinserted', hafter'⟩ :=
      spliceAll_origins moves (before ++ inserted) after₁ focus
    refine ⟨inserted ++ inserted', after₂, ?_, ?_, hafter'.trans hafter⟩
    · simp only [spliceAll]
      rw [hmove, hmoves]
      simp only [List.append_assoc]
    · rw [List.reduceOption_append, hinserted, hinserted']
      rfl

end

end Move

end LuaSugar
