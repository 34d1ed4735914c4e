import MatlabOutline.Declaration.Fault
import MatlabOutline.Declaration.Phrase

/-!
The state of reading declarations: a cursor, and notes of what was worked around.
-/

namespace MatlabOutline

/-- Something that reading has to tell about a line. -/
inductive Note
  | warning (line : Nat) (cause : Warning)
  /-- A token that a `methods` block does not need, with how messages show it. -/
  | skipped (line : Nat) (token : String)
deriving DecidableEq, Repr

/-- A fault and the line that it is about. -/
structure FaultAt where
  line : Nat
  fault : Fault
deriving DecidableEq, Repr

/-- A fault, after the notes made before it, newest first. -/
structure Failure where
  error : FaultAt
  notes : List Note
deriving DecidableEq, Repr

structure Reader where
  cursor : Cursor
  /-- The notes so far, newest first. -/
  notes : List Note := []
deriving DecidableEq, Repr

/-- How messages show a token, or its absence. -/
def describe : Option Token → String
  | some t => t.describe
  | none => "end of input"

namespace Cursor

/-- How messages show the current token. -/
def found (c : Cursor) : String :=
  describe c.peek

/-- A fault at the current token. -/
def fault (c : Cursor) (fault : Fault) : FaultAt :=
  ⟨c.line, fault⟩

end Cursor

namespace Reader

def remaining (r : Reader) : Nat :=
  r.cursor.remaining

def withCursor (r : Reader) (c : Cursor) : Reader :=
  { r with cursor := c }

def move (r : Reader) (f : Cursor → Cursor) : Reader :=
  { r with cursor := f r.cursor }

def note (r : Reader) (n : Note) : Reader :=
  { r with notes := n :: r.notes }

def warn (r : Reader) (line : Nat) (cause : Warning) : Reader :=
  r.note (.warning line cause)

/-- A failure at the current token. -/
def fail (r : Reader) (fault : Fault) : Failure :=
  ⟨r.cursor.fault fault, r.notes⟩

/-- Goes on from what was read without notes. -/
def lift {α : Type} (r : Reader) : Except FaultAt (α × Cursor) → Except Failure (α × Reader)
  | .ok (a, c) => .ok (a, r.withCursor c)
  | .error e => .error ⟨e, r.notes⟩

@[simp] theorem cursor_withCursor (r : Reader) (c : Cursor) : (r.withCursor c).cursor = c :=
  rfl

@[simp] theorem remaining_withCursor (r : Reader) (c : Cursor) :
    (r.withCursor c).remaining = c.remaining :=
  rfl

@[simp] theorem remaining_move (r : Reader) (f : Cursor → Cursor) :
    (r.move f).remaining = (f r.cursor).remaining :=
  rfl

@[simp] theorem remaining_warn (r : Reader) (line : Nat) (cause : Warning) :
    (r.warn line cause).remaining = r.remaining :=
  rfl

@[simp] theorem remaining_note (r : Reader) (n : Note) : (r.note n).remaining = r.remaining :=
  rfl

end Reader

end MatlabOutline
