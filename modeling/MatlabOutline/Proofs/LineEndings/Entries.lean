import MatlabOutline.Proofs.LineEndings.Attributes

/-!
The entries of `properties` and `arguments` blocks are the same with the same docstrings however lines end
(`Reader.Recoded.entries`).
-/

namespace MatlabOutline

namespace ListItem

def recode : ListItem → ListItem
  | .comment block => .comment { block with comments := block.comments.map Docstring.recode }
  | .entry span => .entry { span with trailing := span.trailing.map Docstring.recode }

/-- A comment joins the same block. -/
theorem pushComment_recode (items : List ListItem) (text : String) (firstLine lastLine : Nat) :
    pushComment (items.map recode) (Docstring.recode text) firstLine lastLine =
      (pushComment items text firstLine lastLine).map recode := by
  rw [pushComment, pushComment, List.getLast?_map]
  rcases items.getLast? with _ | ⟨block⟩ | ⟨span⟩
  · simp [recode]
  · simp only [Option.map_some, recode]
    split
    · simp [recode, List.map_dropLast]
    · simp [recode]
  · simp [recode]

theorem pushEntry_recode (items : List ListItem) (firstLine lastLine : Nat) (trailing : Option (String × Nat)) :
    pushEntry (items.map recode) firstLine lastLine (trailing.map fun x => (Docstring.recode x.1, x.2)) =
      (pushEntry items firstLine lastLine trailing).map recode := by
  cases trailing <;> simp [pushEntry, recode]

theorem ownLines_recode (block : CommentBlock) :
    ownLines { block with comments := block.comments.map Docstring.recode } =
      (ownLines block).map Docstring.recode := by
  rw [ownLines, ownLines]
  split <;> simp

/-- The comment above an entry says the same. -/
theorem docAbove_recode (before : Option ListItem) (span : EntrySpan) :
    docAbove (before.map recode) { span with trailing := span.trailing.map Docstring.recode } =
      docAbove before span := by
  rcases before with _ | ⟨block⟩ | ⟨span⟩
  · rfl
  · simp [docAbove, block?, recode, ownLines_recode]
  · rfl

theorem docBehind_recode (span : EntrySpan) :
    docBehind { span with trailing := span.trailing.map Docstring.recode } = docBehind span := by
  cases behind : span.trailing with
  | none => simp [docBehind, behind]
  | some text =>
    have said : Docstring.ofComments [Docstring.recode text] = Docstring.ofComments [text] :=
      Docstring.ofComments_recode [text]
    simp [docBehind, behind, said]

theorem beginsOn_recode (line : Nat) (item : Option ListItem) :
    beginsOn line (item.map recode) = beginsOn line item := by
  rcases item with _ | ⟨block⟩ | ⟨span⟩ <;> rfl

/-- The comment below an entry says the same. -/
theorem docBelow_recode (span : EntrySpan) (after : List ListItem) :
    docBelow { span with trailing := span.trailing.map Docstring.recode } (after.map recode) =
      docBelow span after := by
  rcases after with _ | ⟨⟨block⟩ | ⟨other⟩, after⟩
  · rfl
  · simp only [docBelow, List.map_cons, List.head?_cons, recode, block?, ownLines_recode,
      Docstring.ofComments_recode, List.getElem?_cons_succ, List.getElem?_map, beginsOn_recode]
  · rfl

/-- Entries have the same docstrings. -/
@[simp] theorem docstrings_recode (items : List ListItem) : docstrings (items.map recode) = docstrings items := by
  have each (before : Option ListItem) :
      docstringsAfter (before.map recode) (items.map recode) = docstringsAfter before items := by
    induction items generalizing before with
    | nil => rfl
    | cons item items ih =>
      rcases item with ⟨block⟩ | ⟨span⟩
      · exact ih (some (.comment block))
      · have rest := ih (some (.entry span))
        simp only [List.map_cons, recode, docstringsAfter, docAbove_recode, docBehind_recode, docBelow_recode]
        rw [← rest]
        rfl
  exact each none

end ListItem

/-- The entry with the comment behind it recoded. -/
def Entry.recode (e : Entry) : Entry :=
  { e with trailing := e.trailing.map Token.recode }

namespace Reader

variable {r s : Reader}

theorem Recoded.entrySize (recoded : r.Recoded s) (name : String) :
    (s.entrySize name).1 = (r.entrySize name).1 ∧ (r.entrySize name).2.Recoded (s.entrySize name).2 := by
  rw [Reader.entrySize, Reader.entrySize, recoded.cursor, Cursor.take?_recode (by simp)]
  rcases r.cursor.take? _ with _ | ⟨t, c⟩
  · exact ⟨rfl, recoded⟩
  have size : Cursor.sizeFrom false c.recode.passed c.recode.rest = _ :=
    Cursor.sizeFrom_recode false c.passed c.rest
  simp only [Option.map_some, size, Cursor.line_recode]
  have behind (c' : Cursor) : (r.withCursor c'.skipWhitespace).Recoded (s.withCursor c'.recode.skipWhitespace) := by
    rw [Cursor.skipWhitespace_recode]
    exact recoded.withCursor _
  have invalid (c' : Cursor) := (behind c').warn r.cursor.line (.same (.invalidSize name))
  rcases Cursor.sizeFrom false c.passed c.rest with ⟨_ | _ | ⟨d, dims⟩, c'⟩
  · exact ⟨rfl, invalid c'⟩
  · exact ⟨rfl, invalid c'⟩
  · exact ⟨rfl, behind c'⟩

/-- An entry is the same but for the comment behind it. -/
theorem Recoded.entry (recoded : r.Recoded s) (dotted : Bool) :
    (s.entry dotted).1 = (r.entry dotted).1.recode ∧ (r.entry dotted).2.Recoded (s.entry dotted).2 := by
  simp only [Reader.entry, recoded.cursor, Cursor.entryName_recode, Cursor.skipWhitespace_recode]
  have size := (recoded.withCursor (r.cursor.entryName dotted).2.skipWhitespace).entrySize
    (r.cursor.entryName dotted).1
  generalize Reader.entrySize (r.cursor.entryName dotted).1 (r.withCursor _) = here at size ⊢
  generalize Reader.entrySize (r.cursor.entryName dotted).1 (s.withCursor _) = there at size ⊢
  obtain ⟨dims, sized⟩ := size
  simp only [dims, sized.cursor, Cursor.entryType_recode, Cursor.entryValidators_recode, Cursor.entryDefault_recode,
    Cursor.skipSeparators_recode, Cursor.take?_recode Token.isRemark_recode, Cursor.line_recode,
    Cursor.previous_recode]
  generalize here.2.cursor.entryType.2.entryValidators.2.entryDefault.2 = behind
  rcases behind.skipSeparators.take? Token.isRemark with _ | ⟨t, c⟩
  · refine ⟨?_, sized.withCursor _⟩
    simp [Entry.recode, Function.comp_def]
  · refine ⟨?_, sized.withCursor c⟩
    simp [Entry.recode, Function.comp_def]

theorem isRemark_of_trailing {dotted : Bool} {t : Token} (behind : (r.entry dotted).1.trailing = some t) :
    t.isRemark = true := by
  simp only [Reader.entry, Option.map_eq_some_iff] at behind
  obtain ⟨⟨u, c⟩, taken, rfl⟩ := behind
  exact (Cursor.peek_take? taken).2

@[simp] theorem separatesEntries_recode (t : Token) : separatesEntries t.recode = separatesEntries t := by
  simp [separatesEntries]

theorem trailing_recode (e : Entry) (remark : ∀ t, e.trailing = some t → t.isRemark = true) :
    e.recode.trailing.map (fun t => (t.text, t.endLine)) =
      (e.trailing.map fun t => (t.text, t.endLine)).map fun x => (Docstring.recode x.1, x.2) := by
  cases behind : e.trailing with
  | none => simp [Entry.recode, behind]
  | some t => simp [Entry.recode, behind, Cursor.text_recode_of_remark (remark t behind)]

/-- A block of entries, by the token at which the reader stands. -/
theorem entriesFrom_eq (block : BlockKind) (dotted : Bool) (items : List ListItem) (entries : List Entry)
    (r : Reader) :
    r.entriesFrom block dotted items entries =
      let start := r.move Cursor.skipWhitespace
      match start.cursor.peek with
      | none => ((items, entries), start.warn start.cursor.line (.unterminatedBlock block))
      | some t =>
        if t.isKeyword "end" then ((items, entries), start.move Cursor.advance)
        else if Cursor.isName t then
          let e := (start.entry dotted).1
          let trailing := e.trailing.map fun t => (t.text, t.endLine)
          entriesFrom block dotted (ListItem.pushEntry items e.firstLine e.lastLine trailing)
            (entries ++ [e]) (start.entry dotted).2
        else if t.kind == .comment then
          entriesFrom block dotted (ListItem.pushComment items t.text t.line t.endLine) entries
            (start.move Cursor.advance)
        else if separatesEntries t then
          entriesFrom block dotted items entries (start.move Cursor.advance)
        else
          entriesFrom block dotted items entries
            ((start.warn t.line (.unexpectedInBlock t.describe block)).move Cursor.skipLine) := by
  rw [entriesFrom.eq_def]
  simp only
  split <;> simp only [*]

/-- The entries so far, what documents them, and the reader behind them, recoded. -/
structure EntriesRecoded (x y : (List ListItem × List Entry) × Reader) : Prop where
  items : y.1.1 = x.1.1.map ListItem.recode
  entries : y.1.2 = x.1.2.map Entry.recode
  reader : x.2.Recoded y.2

/-- A block has the same entries, and its comments are recoded. -/
theorem Recoded.entriesFrom (recoded : r.Recoded s) (block : BlockKind) (dotted : Bool)
    (items : List ListItem) (entries : List Entry) :
    EntriesRecoded (r.entriesFrom block dotted items entries)
      (s.entriesFrom block dotted (items.map ListItem.recode) (entries.map Entry.recode)) := by
  have begin {r s : Reader} (recoded : r.Recoded s) := recoded.move Cursor.skipWhitespace_recode
  fun_induction Reader.entriesFrom block dotted items entries r generalizing s
  case case1 items entries r start none =>
    rw [entriesFrom_eq]
    simp only [(begin recoded).peek, none, start, Option.map_none]
    rw [(begin recoded).cursor, Cursor.line_recode]
    exact ⟨rfl, rfl, (begin recoded).warn _ (.same _)⟩
  case case2 items entries r start t here ends =>
    rw [entriesFrom_eq]
    simp only [(begin recoded).peek, here, start, Option.map_some, Token.isKeyword_recode, ends, if_true]
    exact ⟨rfl, rfl, (begin recoded).move Cursor.advance_recode⟩
  case case3 items entries r start t here ends name e trailing ih =>
    have read := (begin recoded).entry dotted
    have behind := trailing_recode e fun _ => isRemark_of_trailing
    have further := ih read.2
    rw [entriesFrom_eq _ _ _ _ s]
    simp only [(begin recoded).peek, here, start, Option.map_some, Token.isKeyword_recode, ends,
      Cursor.isName_recode, name, if_true, Bool.false_eq_true, if_false, read.1]
    rw [← ListItem.pushEntry_recode, ← behind, List.map_append] at further
    exact further
  case case4 items entries r start t here ends name remark ih =>
    have further := ih ((begin recoded).move Cursor.advance_recode)
    have text : t.recode.text = Docstring.recode t.text := by rw [Token.recode_comment (beq_iff_eq.mp remark)]
    rw [entriesFrom_eq _ _ _ _ s]
    simp only [(begin recoded).peek, here, start, Option.map_some, Token.isKeyword_recode, ends,
      Cursor.isName_recode, name, Token.kind_recode, remark, if_true, Bool.false_eq_true, if_false, text,
      Token.line_recode, Token.endLine_recode, ListItem.pushComment_recode]
    exact further
  case case5 items entries r start t here ends name remark separator ih =>
    rw [entriesFrom_eq _ _ _ _ s]
    simp only [(begin recoded).peek, here, start, Option.map_some, Token.isKeyword_recode, ends,
      Cursor.isName_recode, name, Token.kind_recode, remark, separatesEntries_recode, separator, if_true,
      Bool.false_eq_true, if_false]
    exact ih ((begin recoded).move Cursor.advance_recode)
  case case6 items entries r start t here ends name remark separator ih =>
    rw [entriesFrom_eq _ _ _ _ s]
    simp only [(begin recoded).peek, here, start, Option.map_some, Token.isKeyword_recode, ends,
      Cursor.isName_recode, name, Token.kind_recode, remark, separatesEntries_recode, separator,
      Bool.false_eq_true, if_false, Token.line_recode]
    have warned := (begin recoded).warn t.line (.inBlock block t.unix_describe_recode.symm)
    exact ih (warned.move Cursor.skipLine_recode)

/-- The entries of a block are the same, with their docstrings. -/
theorem Recoded.entries (recoded : r.Recoded s) (block : BlockKind) (dotted : Bool) :
    (s.entries block dotted).1 = (r.entries block dotted).1.map Entry.recode ∧
      (r.entries block dotted).2.Recoded (s.entries block dotted).2 := by
  have read := recoded.entriesFrom block dotted [] []
  simp only [List.map_nil] at read
  refine ⟨?_, read.reader⟩
  simp only [Reader.entries, read.items, read.entries, ListItem.docstrings_recode, List.zipWith_map_left,
    List.map_zipWith, Entry.recode]

end Reader

end MatlabOutline
