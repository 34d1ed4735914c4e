import MatlabOutline.Proofs.Checked.Docstrings
import MatlabOutline.Proofs.Reports.Run

/-!
The entries of a block with every line number checked on the way: those of the comments and entries
that are collected, and those that decide which comments belong to which entries. In a run where the
line below each token has a number no check fails (`Checked.entries_eq`).
-/

namespace MatlabOutline

namespace Checked

def pushComment (items : List ListItem) (text : String) (firstLine lastLine : Nat) :
    Option (List ListItem) :=
  match items.getLast? with
  | some (.comment block) => do
    let below ← plus block.lastLine 1
    if below = firstLine then
      return items.dropLast ++
        [.comment { block with comments := block.comments ++ [text], lastLine := lastLine }]
    else return items ++ [.comment { firstLine, lastLine, comments := [text] }]
  | _ => some (items ++ [.comment { firstLine, lastLine, comments := [text] }])

/-- The comment behind an entry with its last line. -/
def trailing (e : Entry) : Option (Option (String × Nat)) :=
  match e.trailing with
  | none => some none
  | some t => (endLine t).map fun last => some (t.text, last)

def entriesFrom (block : BlockKind) (dotted : Bool) (items : List ListItem) (entries : List Entry)
    (r : Reader) : Option ((List ListItem × List Entry) × Reader) :=
  let start := r.move Cursor.skipWhitespace
  match _ : start.cursor.peek with
  | none => some ((items, entries), start.warn start.cursor.line (.unterminatedBlock block))
  | some t =>
    if t.isKeyword "end" then some ((items, entries), start.move Cursor.advance)
    else if Cursor.isName t then do
      let e := (start.entry dotted).1
      let behind ← trailing e
      entriesFrom block dotted (ListItem.pushEntry items e.firstLine e.lastLine behind) (entries ++ [e])
        (start.entry dotted).2
    else if t.kind == .comment then do
      let last ← endLine t
      let longer ← pushComment items t.text t.line last
      entriesFrom block dotted longer entries (start.move Cursor.advance)
    else if Reader.separatesEntries t then
      entriesFrom block dotted items entries (start.move Cursor.advance)
    else
      entriesFrom block dotted items entries
        ((start.warn t.line (.unexpectedInBlock t.describe block)).move Cursor.skipLine)
termination_by r.remaining
decreasing_by
  all_goals have first : start.remaining ≤ r.remaining := Cursor.remaining_skip _ _
  · rename_i here _ name
    have step : (start.entry dotted).2.remaining < start.remaining := by
      apply Reader.remaining_entry
      simp [Cursor.at?, here, name]
    exact Nat.lt_of_lt_of_le step first
  · rename_i here _ _ _
    exact Nat.lt_of_lt_of_le (Cursor.remaining_advance_lt here) first
  · rename_i here _ _ _ _
    exact Nat.lt_of_lt_of_le (Cursor.remaining_advance_lt here) first
  · rename_i here _ _ _ _
    have step := Cursor.remaining_advance_lt here
    rw [Cursor.remaining_advance] at step
    exact Nat.lt_of_le_of_lt (Cursor.remaining_skipLine start.cursor) (Nat.lt_of_lt_of_le step first)

def entries (block : BlockKind) (dotted : Bool) (r : Reader) : Option (List Entry × Reader) := do
  let ((items, read), r') ← entriesFrom block dotted [] [] r
  let docs ← docstrings items
  let document := fun (e : Entry) (doc : Option String) => { e with spec := { e.spec with doc := doc } }
  return (List.zipWith document read docs, r')

/-- The line below each token of a run has a number. -/
def Numbered (run : List Token) : Prop :=
  ∀ t ∈ run, t.endLine + 1 < UInt32.size

theorem mem_of_trailing {dotted : Bool} {r : Reader} {t : Token}
    (behind : (r.entry dotted).1.trailing = some t) : t ∈ r.cursor.tokens := by
  obtain ⟨⟨u, c⟩, taken, rfl⟩ := Option.map_eq_some_iff.mp behind
  have member := Cursor.mem_of_peek (Cursor.peek_take? taken).1
  simpa using member

section Lines

variable {run : List Token} (numbered : Numbered run)
include numbered

theorem Numbered.line_lt {c : Cursor} (inside : c.tokens = run) : c.line + 1 < UInt32.size := by
  rcases c.line_cases with first | ⟨t, member, line⟩
  · rw [first]
    decide
  · have ends := numbered t (inside ▸ member)
    have begins := t.line_le_endLine
    omega

theorem Numbered.endLine_eq {t : Token} (member : t ∈ run) : endLine t = some t.endLine :=
  Checked.endLine_eq (Nat.lt_of_succ_lt (numbered t member))

theorem Numbered.lastLine_entry (dotted : Bool) {r : Reader} (inside : r.cursor.tokens = run) :
    (r.entry dotted).1.lastLine + 1 < UInt32.size := by
  have first := numbered.line_lt inside
  have size : ((r.withCursor (r.cursor.entryName dotted).2.skipWhitespace).entrySize
      (r.cursor.entryName dotted).1).2.cursor.tokens = run := by simpa using inside
  unfold Reader.entry
  simp only
  generalize (r.withCursor (r.cursor.entryName dotted).2.skipWhitespace).entrySize
    (r.cursor.entryName dotted).1 = sized at size ⊢
  have value : sized.2.cursor.entryType.2.entryValidators.2.entryDefault.2.tokens = run := by
    simpa using size
  rcases before : sized.2.cursor.entryType.2.entryValidators.2.entryDefault.2.previous with _ | t
  · exact first
  · exact numbered t (value ▸ Cursor.mem_of_previous before)

theorem Numbered.trailing_eq (dotted : Bool) {r : Reader} (inside : r.cursor.tokens = run) :
    trailing (r.entry dotted).1 = some ((r.entry dotted).1.trailing.map fun t => (t.text, t.endLine)) := by
  rw [trailing]
  rcases behind : (r.entry dotted).1.trailing with _ | t
  · rfl
  · have member : t ∈ run := inside ▸ mem_of_trailing behind
    simp only [numbered.endLine_eq member, Option.map_some]

end Lines

theorem fits_pushEntry {items : List ListItem} (fits : ∀ item ∈ items, Fits item) {first last : Nat}
    (below : last + 1 < UInt32.size) {trailing : Option (String × Nat)}
    (behind : ∀ text line, trailing = some (text, line) → line + 1 < UInt32.size) :
    ∀ item ∈ ListItem.pushEntry items first last trailing, Fits item := by
  have entry (comment : Option String) : Fits (.entry ⟨first, last, comment⟩) := ⟨by simp, below⟩
  unfold ListItem.pushEntry
  rcases trailing with _ | ⟨text, line⟩
  · exact List.forall_mem_append.mpr ⟨fits, by simp [entry]⟩
  · have comment : Fits (.comment
        { firstLine := last, lastLine := line, comments := [text], afterEntry := true }) := by
      refine ⟨?_, behind text line rfl⟩
      rintro block same -
      cases same
      simp
    exact List.forall_mem_append.mpr ⟨fits, by simp [entry, comment]⟩

theorem fits_pushComment {items : List ListItem} (fits : ∀ item ∈ items, Fits item) (text : String)
    (first : Nat) {last : Nat} (below : last + 1 < UInt32.size) :
    ∀ item ∈ ListItem.pushComment items text first last, Fits item := by
  have single : Fits (.comment { firstLine := first, lastLine := last, comments := [text] }) := by
    refine ⟨?_, below⟩
    rintro block same after
    cases same
    simp at after
  have longer (block : CommentBlock) : Fits (.comment
      { block with comments := block.comments ++ [text], lastLine := last }) := by
    refine ⟨?_, below⟩
    rintro grown same -
    cases same
    simp
  unfold ListItem.pushComment
  split
  · next block ended =>
    by_cases near : block.lastLine + 1 = first
    · rw [if_pos near]
      refine List.forall_mem_append.mpr ⟨fun item member => ?_, by simpa using longer block⟩
      exact fits item (List.dropLast_subset _ member)
    · rw [if_neg near]
      exact List.forall_mem_append.mpr ⟨fits, by simpa using single⟩
  · exact List.forall_mem_append.mpr ⟨fits, by simpa using single⟩

theorem pushComment_eq {items : List ListItem} (fits : ∀ item ∈ items, Fits item) (text : String)
    (first last : Nat) :
    pushComment items text first last = some (ListItem.pushComment items text first last) := by
  unfold pushComment ListItem.pushComment
  rcases ended : items.getLast? with _ | block | span
  · rfl
  · have below : plus block.lastLine 1 = some (block.lastLine + 1) :=
      plus_eq (fits _ (List.mem_of_getLast? ended)).below
    simp only [below, Option.bind_eq_bind, Option.bind_some]
    exact (apply_ite some _ _ _).symm
  · rfl

theorem entriesFrom_step (block : BlockKind) (dotted : Bool) (items : List ListItem)
    (entries : List Entry) (r : Reader) :
    entriesFrom block dotted items entries r =
      let start := r.move Cursor.skipWhitespace
      match start.cursor.peek with
      | none => some ((items, entries), start.warn start.cursor.line (.unterminatedBlock block))
      | some t =>
        if t.isKeyword "end" then some ((items, entries), start.move Cursor.advance)
        else if Cursor.isName t then do
          let e := (start.entry dotted).1
          let behind ← trailing e
          entriesFrom block dotted (ListItem.pushEntry items e.firstLine e.lastLine behind) (entries ++ [e])
            (start.entry dotted).2
        else if t.kind == .comment then do
          let last ← endLine t
          let longer ← pushComment items t.text t.line last
          entriesFrom block dotted longer entries (start.move Cursor.advance)
        else if Reader.separatesEntries t then
          entriesFrom block dotted items entries (start.move Cursor.advance)
        else
          entriesFrom block dotted items entries
            ((start.warn t.line (.unexpectedInBlock t.describe block)).move Cursor.skipLine) := by
  rw [entriesFrom.eq_def]
  simp only
  split
  · simp only [*]
  · next here => simp only [here]

/-- Entries are collected without a failing check, and every item that is collected fits. -/
theorem entriesFrom_eq {run : List Token} (numbered : Numbered run) (block : BlockKind) (dotted : Bool)
    {items : List ListItem} (entries : List Entry) {r : Reader} (inside : r.cursor.tokens = run)
    (fits : ∀ item ∈ items, Fits item) :
    entriesFrom block dotted items entries r = some (r.entriesFrom block dotted items entries) ∧
      ∀ item ∈ (r.entriesFrom block dotted items entries).1.1, Fits item := by
  have first {r : Reader} (inside : r.cursor.tokens = run) :
      (r.move Cursor.skipWhitespace).cursor.tokens = run :=
    (Cursor.tokens_skipWhitespace _).trans inside
  fun_induction Reader.entriesFrom block dotted items entries r with
  | case1 items entries r start nothing =>
    refine ⟨?_, fits⟩
    rw [entriesFrom_step]
    simp only [start, nothing]
  | case2 items entries r start t here close =>
    refine ⟨?_, fits⟩
    rw [entriesFrom_step]
    simp only [start, here, close, if_true]
  | case3 items entries r start t here other name e behind ih =>
    have within := first inside
    have remark : trailing e = some behind := numbered.trailing_eq dotted within
    rw [entriesFrom_step]
    simp only [start, here, other, name, Bool.false_eq_true, if_false, if_true]
    rw [remark]
    apply ih ((Reader.tokens_entry dotted _).trans within)
    refine fits_pushEntry fits (numbered.lastLine_entry dotted within) ?_
    intro text line ended
    obtain ⟨u, comment, same⟩ := Option.map_eq_some_iff.mp ended
    cases same
    exact numbered u (within ▸ mem_of_trailing comment)
  | case4 items entries r start t here other unnamed comment ih =>
    have within := first inside
    have member : t ∈ run := within ▸ Cursor.mem_of_peek here
    rw [entriesFrom_step]
    simp only [start, here, other, unnamed, comment, Bool.false_eq_true, if_false, if_true,
      numbered.endLine_eq member, pushComment_eq fits, Option.bind_eq_bind, Option.bind_some]
    exact ih ((Cursor.tokens_advance _).trans within) (fits_pushComment fits _ _ (numbered t member))
  | case5 items entries r start t here other unnamed plain separator ih =>
    rw [entriesFrom_step]
    simp only [start, here, other, unnamed, plain, separator, Bool.false_eq_true, if_false, if_true]
    exact ih ((Cursor.tokens_advance _).trans (first inside)) fits
  | case6 items entries r start t here other unnamed plain solid ih =>
    rw [entriesFrom_step]
    simp only [start, here, other, unnamed, plain, solid, Bool.false_eq_true, if_false]
    exact ih ((Cursor.tokens_skipLine _).trans (first inside)) fits

theorem entries_eq {run : List Token} (numbered : Numbered run) (block : BlockKind) (dotted : Bool)
    {r : Reader} (inside : r.cursor.tokens = run) :
    entries block dotted r = some (r.entries block dotted) := by
  have nothing : ∀ item ∈ ([] : List ListItem), Fits item := by simp
  obtain ⟨collected, fits⟩ := entriesFrom_eq numbered block dotted [] inside nothing
  simp only [entries, collected, docstrings_eq fits, Option.bind_eq_bind, Option.bind_some]
  rfl

end Checked

end MatlabOutline
