import LuaSugar.Syntax.Stmt

/-!
# Cursors in statement lists

A statement list under a pass is a list of slots, each a statement and whether the pass
itself inserted it. A cursor is a zipper over the slots: it always stands on a statement, and
inserting before or after it moves the statement along with the cursor.

Edits never remove a slot. Deleting a statement leaves an ignored one in its place, so the slots
that were there before an edit are there after it, in the same order.
-/

namespace LuaSugar

/-- A place in a statement list under a pass. -/
structure Slot where
  stmt : Stmt
  /-- Inserted by the pass, which does not visit it. -/
  fresh : Bool

/-- A position in a statement list under a pass. -/
structure Cursor where
  /-- The slots before, nearest first. -/
  before : List Slot
  focus : Slot
  after : List Slot

namespace Cursor

/-- How many slots stand before. -/
def index (c : Cursor) : Nat := c.before.length

/-- The statement the cursor stands on. -/
def stmt (c : Cursor) : Stmt := c.focus.stmt

def line (c : Cursor) : Nat := c.stmt.line

/-- All slots in order. -/
def slots (c : Cursor) : List Slot := c.before.reverse ++ c.focus :: c.after

/-- Put another statement in place of this one. -/
def replace (c : Cursor) (s : Stmt) : Cursor := { c with focus := { c.focus with stmt := s } }

/-- Delete the statement; an ignored one with its line stays behind. -/
def remove (c : Cursor) : Cursor := c.replace (.ignore c.line)

/-- Insert a statement before this one. -/
def insertBefore (c : Cursor) (s : Stmt) : Cursor := { c with before := ⟨s, true⟩ :: c.before }

/-- Insert a statement after this one. -/
def insertAfter (c : Cursor) (s : Stmt) : Cursor := { c with after := ⟨s, true⟩ :: c.after }

/-- The cursor on the following statement. -/
def next? (c : Cursor) : Option Cursor :=
  match c.after with
  | [] => none
  | slot :: after => some ⟨c.focus :: c.before, slot, after⟩

/-- Move back over slots until `index` of them stand before. -/
def backTo (index : Nat) : Cursor → Cursor
  | ⟨[], focus, after⟩ => ⟨[], focus, after⟩
  | ⟨slot :: before, focus, after⟩ =>
    if before.length < index then ⟨slot :: before, focus, after⟩
    else backTo index ⟨before, slot, focus :: after⟩
termination_by c => c.before.length

end Cursor

end LuaSugar
