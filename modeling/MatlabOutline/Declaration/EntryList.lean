import MatlabOutline.Declaration.Entry
import MatlabOutline.Docstring.Association

/-!
The entries of a `properties` or `arguments` block with their docstrings.
-/

namespace MatlabOutline

namespace Reader

/-- A token that separates entries. -/
def separatesEntries (t : Token) : Bool :=
  t.isNewline || t.isPunct ";" || t.isPunct ","

/-- The entries up to the `end` of a block and the items that document them, after those already
read. -/
def entriesFrom (block : BlockKind) (dotted : Bool) (items : List ListItem)
    (entries : List Entry) (r : Reader) : (List ListItem × List Entry) × Reader :=
  let start := r.move Cursor.skipWhitespace
  match _ : start.cursor.peek with
  | none => ((items, entries), start.warn start.cursor.line (.unterminatedBlock block))
  | some t =>
    if t.isKeyword "end" then ((items, entries), start.move Cursor.advance)
    else if Cursor.isName t then
      let e := (start.entry dotted).1
      let trailing := e.trailing.map fun t => (t.text, t.endLine)
      entriesFrom block dotted (ListItem.pushEntry items e.firstLine e.lastLine trailing)
        (entries ++ [e]) (start.entry dotted).2
    else if t.kind == .comment then
      entriesFrom block dotted (ListItem.pushComment items t.text t.line t.endLine) entries
        (start.move Cursor.advance)
    else if separatesEntries t then
      entriesFrom block dotted items entries (start.move Cursor.advance)
    else
      entriesFrom block dotted items entries
        ((start.warn t.line (.unexpectedInBlock t.describe block)).move Cursor.skipLine)
termination_by r.remaining
decreasing_by
  all_goals have first : start.remaining ≤ r.remaining := Cursor.remaining_skip _ _
  · rename_i here _ name
    have step : (start.entry dotted).2.remaining < start.remaining := by
      apply remaining_entry
      simp [Cursor.at?, here, name]
    exact Nat.lt_of_lt_of_le step first
  · rename_i here _ _ _
    exact Nat.lt_of_lt_of_le (Cursor.remaining_advance_lt here) first
  · rename_i here _ _ _ _
    exact Nat.lt_of_lt_of_le (Cursor.remaining_advance_lt here) first
  · rename_i here _ _ _ _
    have step := Cursor.remaining_advance_lt here
    rw [Cursor.remaining_advance] at step
    exact Nat.lt_of_le_of_lt (Cursor.remaining_skipLine start.cursor)
      (Nat.lt_of_lt_of_le step first)

theorem remaining_entriesFrom (block : BlockKind) (dotted : Bool) (items : List ListItem)
    (entries : List Entry) (r : Reader) :
    (r.entriesFrom block dotted items entries).2.remaining ≤ r.remaining := by
  have start (r : Reader) : (r.move Cursor.skipWhitespace).remaining ≤ r.remaining :=
    Cursor.remaining_skip _ _
  fun_induction entriesFrom block dotted items entries r with
  | case1 items entries r s none => exact start r
  | case2 items entries r s t here ending =>
    have step := Cursor.remaining_advance_lt here
    exact Nat.le_trans (Nat.le_of_lt step) (start r)
  | case3 items entries r s t here _ name e trailing ih =>
    have step : (s.entry dotted).2.remaining < s.remaining := by
      apply remaining_entry
      simp [Cursor.at?, here, name]
    have first : s.remaining ≤ r.remaining := start r
    omega
  | case4 items entries r s t here _ _ comment ih =>
    have step := Cursor.remaining_advance_lt here
    exact Nat.le_trans ih (Nat.le_trans (Nat.le_of_lt step) (start r))
  | case5 items entries r s t here _ _ _ separator ih =>
    have step := Cursor.remaining_advance_lt here
    exact Nat.le_trans ih (Nat.le_trans (Nat.le_of_lt step) (start r))
  | case6 items entries r s t here _ _ _ _ ih =>
    have line := Cursor.remaining_skipLine s.cursor
    exact Nat.le_trans ih (Nat.le_trans (Nat.le_trans line (Nat.sub_le _ _)) (start r))

/-- The entries of a block, whose header line has been passed, each with its docstring. -/
def entries (block : BlockKind) (dotted : Bool) (r : Reader) : List Entry × Reader :=
  let ((items, read), r') := r.entriesFrom block dotted [] []
  let document := fun (e : Entry) (doc : Option String) =>
    { e with spec := { e.spec with doc := doc } }
  (List.zipWith document read (ListItem.docstrings items), r')

theorem remaining_entries (block : BlockKind) (dotted : Bool) (r : Reader) :
    (r.entries block dotted).2.remaining ≤ r.remaining :=
  remaining_entriesFrom block dotted [] [] r

end Reader

end MatlabOutline
