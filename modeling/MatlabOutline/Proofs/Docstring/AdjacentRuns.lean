import MatlabOutline.Proofs.Docstring.Nearness

/-!
The items that a list of entries is read into hold its runs of comments, and the docstrings found
by the items next to an entry are the nearest ones by lines.
-/

namespace MatlabOutline

theorem Docstring.ofComments_nil : ofComments [] = none := by
  simp [ofComments, clean, linesOf, dropOuterBlank, Text.joinWith, ofText]

namespace ListItem

/-- Reads one stretch of lines behind the items so far. -/
def read (items : List ListItem) : Laid → List ListItem
  | ⟨_, .blank⟩ => items
  | ⟨line, .comment text more⟩ => pushComment items text line (line + more)
  | ⟨line, .entry more trailing⟩ =>
    pushEntry items line (line + more) (trailing.map fun text => (text, line + more))

/-- The items that stretches of lines are read into. -/
def readAll (placed : List Laid) : List ListItem :=
  placed.foldl read []

/-- The block that a comment on the line below makes of an open block, which is the last item. -/
def extend (pending : Option CommentBlock) (text : String) (firstLine lastLine : Nat) :
    CommentBlock :=
  match pending with
  | some block => { block with comments := block.comments ++ [text], lastLine := lastLine }
  | none => { firstLine, lastLine, comments := [text] }

/-- The block that the comment behind an entry opens. -/
def openBehind (line : Nat) (trailing : Option String) : Option CommentBlock :=
  trailing.map fun text =>
    { firstLine := line, lastLine := line, comments := [text], afterEntry := true }

def close (pending : Option CommentBlock) : List ListItem :=
  (pending.map comment).toList

/-- The items of stretches of lines, in one pass from the top: `pending` is the block that ends on
the line above. -/
def itemsFrom (pending : Option CommentBlock) : List Laid → List ListItem
  | [] => close pending
  | ⟨_, .blank⟩ :: r => close pending ++ itemsFrom none r
  | ⟨line, .comment text more⟩ :: r =>
    itemsFrom (some (extend pending text line (line + more))) r
  | ⟨line, .entry more trailing⟩ :: r =>
    close pending ++ .entry ⟨line, line + more, trailing⟩ ::
      itemsFrom (openBehind (line + more) trailing) r

/-- What stands above a line: an open block that ends on the line before, or else a last item that
is no block ending there. -/
inductive Above (line : Nat) (last : Option ListItem) : Option CommentBlock → Prop
  | running (block : CommentBlock) (touches : block.lastLine + 1 = line) :
    Above line last (some block)
  | clear (apart : ∀ block ∈ block? last, block.lastLine + 1 < line) : Above line last none

theorem Above.blank {line : Nat} {last : Option ListItem} {pending : Option CommentBlock}
    (above : Above line last pending) : Above (line + 1) ((pending.map comment).or last) none := by
  refine .clear fun block here => ?_
  rcases above with ⟨run, touches⟩ | apart
  · cases Option.some.inj here
    omega
  · exact Nat.lt_succ_of_lt (apart block here)

theorem Above.extend {line : Nat} {last : Option ListItem} (pending : Option CommentBlock)
    (text : String) (first : Nat) : Above (line + 1) last (some (extend pending text first line)) :=
  .running _ (by cases pending <;> rfl)

theorem Above.behind (line lastLine : Nat) (trailing : Option String) :
    Above (lastLine + 1) (some (.entry ⟨line, lastLine, trailing⟩))
      (openBehind lastLine trailing) := by
  cases trailing with
  | none => exact .clear (by simp [block?])
  | some text => exact .running _ rfl

theorem pushComment_close {done : List ListItem} {line : Nat} {pending : Option CommentBlock}
    (above : Above line done.getLast? pending) (text : String) (lastLine : Nat) :
    pushComment (done ++ close pending) text line lastLine =
      done ++ close (some (extend pending text line lastLine)) := by
  rcases above with ⟨block, rfl⟩ | apart
  · simp [pushComment, extend, close]
  · unfold pushComment
    split
    · next block last =>
      rw [close, Option.map_none, Option.toList_none, List.append_nil] at last
      rw [if_neg (Nat.ne_of_lt (apart block (by rw [last]; rfl)))]
      simp [close, extend]
    · simp [close, extend]

theorem pushEntry_eq (items : List ListItem) (line lastLine : Nat) (trailing : Option String) :
    pushEntry items line lastLine (trailing.map fun text => (text, lastLine)) =
      (items ++ [.entry ⟨line, lastLine, trailing⟩]) ++ close (openBehind lastLine trailing) := by
  cases trailing <;> simp [pushEntry, openBehind, close]

theorem getLast?_close (done : List ListItem) (pending : Option CommentBlock) :
    (done ++ close pending).getLast? = (pending.map comment).or done.getLast? := by
  cases pending <;> simp [close]

/-- Reading line by line gives the items of the one pass: the open block is the last item so far. -/
theorem foldl_read {done : List ListItem} {pending : Option CommentBlock} {line : Nat}
    (stretches : List Stretch) (above : Above line done.getLast? pending) :
    (Laid.layOut line stretches).foldl read (done ++ close pending) =
      done ++ itemsFrom pending (Laid.layOut line stretches) := by
  induction stretches generalizing done pending line with
  | nil => rfl
  | cons s r ih =>
    rw [Laid.layOut, List.foldl_cons]
    rcases s with _ | ⟨text, more⟩ | ⟨more, trailing⟩
    · have closed := getLast?_close done pending ▸ above.blank
      simpa [read, itemsFrom, close, Stretch.height] using ih closed
    · rw [read, pushComment_close above]
      exact ih (.extend pending text line)
    · rw [read, pushEntry_eq, ih, itemsFrom, List.append_assoc, List.append_assoc]
      · rfl
      · rw [List.getLast?_concat]
        exact .behind line (line + more) trailing

theorem readAll_eq (line : Nat) (stretches : List Stretch) :
    readAll (Laid.layOut line stretches) = itemsFrom none (Laid.layOut line stretches) :=
  @foldl_read [] none line stretches (.clear (by simp [block?]))

/-- The comments of an open block that stand on lines of their own. -/
def ownTexts (pending : Option CommentBlock) : List String :=
  (pending.map ownLines).getD []

theorem ownLines_concat {block : CommentBlock} (filled : block.comments ≠ []) (text : String)
    (line : Nat) :
    ownLines { block with comments := block.comments ++ [text], lastLine := line } =
      ownLines block ++ [text] := by
  obtain ⟨first, more, comments⟩ := List.exists_cons_of_ne_nil filled
  cases behind : block.afterEntry <;> simp [ownLines, behind, comments]

theorem ownTexts_extend {pending : Option CommentBlock}
    (filled : ∀ block ∈ pending, block.comments ≠ []) (text : String) (firstLine lastLine : Nat) :
    ownTexts (some (extend pending text firstLine lastLine)) = ownTexts pending ++ [text] := by
  cases pending with
  | none => rfl
  | some block => exact ownLines_concat (filled block rfl) text lastLine

theorem ownTexts_behind (line : Nat) (trailing : Option String) :
    ownTexts (openBehind line trailing) = [] := by
  cases trailing <;> rfl

theorem filled_extend (pending : Option CommentBlock) (text : String) (firstLine lastLine : Nat) :
    (extend pending text firstLine lastLine).comments ≠ [] := by
  cases pending <;> simp [extend]

theorem filled_behind (line : Nat) (trailing : Option String) :
    ∀ block ∈ openBehind line trailing, block.comments ≠ [] := by
  cases trailing <;> simp [openBehind]

theorem docstringsAfter_close (before : Option ListItem) (pending : Option CommentBlock)
    (items : List ListItem) :
    docstringsAfter before (close pending ++ items) =
      docstringsAfter ((pending.map comment).or before) items := by
  cases pending <;> rfl

theorem docAbove_close {line : Nat} {before : Option ListItem} {pending : Option CommentBlock}
    (above : Above line before pending) (lastLine : Nat) (trailing : Option String) :
    docAbove ((pending.map comment).or before) ⟨line, lastLine, trailing⟩ =
      Docstring.ofComments (ownTexts pending) := by
  rcases above with ⟨block, touches⟩ | apart
  · simp [docAbove, block?, touches, ownTexts]
  · unfold docAbove
    split
    · next block here => rw [if_neg (Nat.ne_of_lt (apart block here))]; rfl
    · rfl

/-- The comments on the lines below an open block join it, up to the first line that is no
comment. -/
theorem itemsFrom_open (block : CommentBlock) (stretches : List Stretch) :
    ∃ whole rest,
      itemsFrom (some block) (Laid.layOut (block.lastLine + 1) stretches) =
        .comment whole :: itemsFrom none (Laid.layOut (whole.lastLine + 1) rest) ∧
      (whole.firstLine = block.firstLine ∧ whole.afterEntry = block.afterEntry) ∧
      whole.comments = block.comments ++ Laid.texts
        ((Laid.layOut (block.lastLine + 1) stretches).takeWhile Laid.isComment) ∧
      (Laid.layOut (block.lastLine + 1) stretches).dropWhile Laid.isComment =
        Laid.layOut (whole.lastLine + 1) rest := by
  induction stretches generalizing block with
  | nil => exact ⟨block, [], rfl, ⟨rfl, rfl⟩, by simp [Laid.layOut, Laid.texts], rfl⟩
  | cons s r ih =>
    rcases s with _ | ⟨text, more⟩ | ⟨more, trailing⟩
    · exact ⟨block, .blank :: r, rfl, ⟨rfl, rfl⟩,
        by simp [Laid.layOut, Laid.isComment, Stretch.isComment, Laid.texts], rfl⟩
    · obtain ⟨whole, rest, items, same, comments, below⟩ :=
        ih (extend (some block) text (block.lastLine + 1) (block.lastLine + 1 + more))
      refine ⟨whole, rest, items, same, ?_, below⟩
      rw [comments, extend, List.append_assoc]
      rfl
    · exact ⟨block, .entry more trailing :: r, rfl, ⟨rfl, rfl⟩,
        by simp [Laid.layOut, Laid.isComment, Stretch.isComment, Laid.texts], rfl⟩

theorem itemsFrom_comment (line : Nat) (text : String) (more : Nat) (r : List Stretch) :
    ∃ whole below, itemsFrom none (Laid.layOut line (.comment text more :: r)) =
      .comment whole :: below ∧ whole.firstLine = line ∧ whole.afterEntry = false := by
  obtain ⟨whole, rest, items, same, -⟩ := itemsFrom_open (extend none text line (line + more)) r
  exact ⟨whole, _, items, same⟩

/-- With no open block, the first item begins no higher than the lines read, and is no block behind
an entry. -/
theorem block?_itemsFrom (line : Nat) (stretches : List Stretch) :
    ∀ block ∈ block? (itemsFrom none (Laid.layOut line stretches)).head?,
      line ≤ block.firstLine ∧ block.afterEntry = false := by
  induction stretches generalizing line with
  | nil => simp [Laid.layOut, itemsFrom, close, block?]
  | cons s r ih =>
    intro block here
    rcases s with _ | ⟨text, more⟩ | ⟨more, trailing⟩
    · have later := ih (line + 1) block here
      exact ⟨Nat.le_of_succ_le later.1, later.2⟩
    · obtain ⟨whole, below, items, first, after⟩ := itemsFrom_comment line text more r
      rw [items] at here
      cases here
      exact ⟨first.ge, after⟩
    · cases here

theorem beginsOn_itemsFrom_above {line below : Nat} (higher : line < below)
    (stretches : List Stretch) :
    beginsOn line (itemsFrom none (Laid.layOut below stretches)).head? = false := by
  induction stretches generalizing below with
  | nil => rfl
  | cons s r ih =>
    rcases s with _ | ⟨text, more⟩ | ⟨more, trailing⟩
    · exact ih (Nat.lt_succ_of_lt higher)
    · obtain ⟨whole, further, items, -⟩ := itemsFrom_comment below text more r
      rw [items]
      rfl
    · exact beq_false_of_ne (Nat.ne_of_gt higher)

/-- An entry is the first item on its line exactly when it is what stands on that line. -/
theorem beginsOn_itemsFrom (line : Nat) (stretches : List Stretch) :
    beginsOn line (itemsFrom none (Laid.layOut line stretches)).head? =
      (Laid.layOut line stretches).head?.any Laid.isEntry := by
  rcases stretches with _ | ⟨_ | ⟨text, more⟩ | ⟨more, trailing⟩, r⟩
  · rfl
  · exact beginsOn_itemsFrom_above (Nat.lt_succ_self line) r
  · obtain ⟨whole, below, items, -⟩ := itemsFrom_comment line text more r
    rw [items]
    rfl
  · exact beq_self_eq_true line

theorem docBelow_lower {span : EntrySpan} {after : List ListItem}
    (lower : ∀ block ∈ block? after.head?,
      span.lastLine + 2 ≤ block.firstLine ∧ block.afterEntry = false) :
    docBelow span after = none := by
  unfold docBelow
  split
  · next block here =>
    obtain ⟨under, alone⟩ := lower block here
    rw [if_neg]
    rintro ⟨start, -⟩
    rw [alone, if_neg Bool.false_ne_true] at start
    omega
  · rfl

/-- The block below an entry holds the run of comments below it. -/
theorem docBelow_open {span : EntrySpan} {block : CommentBlock} (filled : block.comments ≠ [])
    (near : block.afterEntry = false → block.firstLine = span.lastLine + 1)
    (stretches : List Stretch) :
    docBelow span (itemsFrom (some block) (Laid.layOut (block.lastLine + 1) stretches)) =
      if ((Laid.layOut (block.lastLine + 1) stretches).dropWhile Laid.isComment).head?.any
        Laid.isEntry then none
      else Docstring.ofComments (ownLines block ++ Laid.texts
        ((Laid.layOut (block.lastLine + 1) stretches).takeWhile Laid.isComment)) := by
  obtain ⟨whole, rest, items, ⟨first, after⟩, comments, below⟩ := itemsFrom_open block stretches
  have start : (if whole.afterEntry then span.lastLine + 1 else whole.firstLine) =
      span.lastLine + 1 := by
    rw [first, after]
    cases behind : block.afterEntry with
    | false => exact near behind
    | true => rfl
  have own : ownLines whole = ownLines block ++ Laid.texts
      ((Laid.layOut (block.lastLine + 1) stretches).takeWhile Laid.isComment) := by
    rw [ownLines, ownLines, comments, after]
    split
    · exact List.drop_append_of_le_length (List.length_pos_iff.mpr filled)
    · rfl
  have under : beginsOn (whole.lastLine + 1)
      (ListItem.comment whole :: itemsFrom none (Laid.layOut (whole.lastLine + 1) rest))[1]? =
        (Laid.layOut (whole.lastLine + 1) rest).head?.any Laid.isEntry := by
    rw [List.getElem?_cons_succ, ← List.head?_eq_getElem?]
    exact beginsOn_itemsFrom _ rest
  rw [items, below]
  simp only [docBelow, List.head?_cons, block?, start, under, own, true_and]
  cases (Laid.layOut (whole.lastLine + 1) rest).head?.any Laid.isEntry <;> rfl

theorem docBelow_itemsFrom (line lastLine : Nat) (trailing : Option String)
    (stretches : List Stretch) :
    docBelow ⟨line, lastLine, trailing⟩
        (itemsFrom (openBehind lastLine trailing) (Laid.layOut (lastLine + 1) stretches)) =
      Docstring.ofComments (Laid.texts (Laid.runBelow (Laid.layOut (lastLine + 1) stretches))) := by
  cases trailing with
  | some text =>
    rw [Laid.runBelow, apply_ite Laid.texts, apply_ite Docstring.ofComments]
    exact docBelow_open (by simp) (by simp) stretches
  | none =>
    rcases stretches with _ | ⟨_ | ⟨text, more⟩ | ⟨more, trailing⟩, r⟩
    · exact Docstring.ofComments_nil.symm
    · -- below a blank line every block begins too low
      exact (docBelow_lower (block?_itemsFrom (lastLine + 2) r)).trans Docstring.ofComments_nil.symm
    · rw [Laid.runBelow, apply_ite Laid.texts, apply_ite Docstring.ofComments]
      exact docBelow_open (filled_extend none text _ _) (fun _ => rfl) r
    · exact Docstring.ofComments_nil.symm

theorem docBehind_eq (line lastLine : Nat) (trailing : Option String) :
    docBehind ⟨line, lastLine, trailing⟩ = (Candidate.behind lastLine trailing).doc := by
  simp only [docBehind, Candidate.behind, Option.bind_eq_bind, Option.pure_def, Option.map_eq_bind]
  rfl

end ListItem

theorem Candidate.find?_bind (c : Candidate) (r : List Candidate) :
    ((c :: r).find? (·.doc.isSome)).bind doc = (c.doc <|> (r.find? (·.doc.isSome)).bind doc) := by
  rw [List.find?_cons]
  cases said : c.doc <;> simp [said]

theorem EntrySite.doc_eq (s : EntrySite) :
    s.doc = (Docstring.ofComments (Laid.texts (Laid.runAbove s.above)) <|>
      (Candidate.behind (s.line + s.more) s.trailing).doc <|>
      Docstring.ofComments (Laid.texts (Laid.runBelow s.below))) := by
  rw [doc, chosen, candidates, Candidate.find?_bind, Candidate.find?_bind, Candidate.find?_bind]
  simp [Candidate.ofRun]

namespace ListItem

/-- The docstrings of the entries from a line on, where the open block holds the run of comments above
that line. -/
theorem docstringsAfter_itemsFrom {above : List Laid} {before : Option ListItem}
    {pending : Option CommentBlock} {line : Nat} (stretches : List Stretch)
    (stands : Above line before pending) (filled : ∀ block ∈ pending, block.comments ≠ [])
    (own : ownTexts pending = Laid.texts (Laid.runAbove above)) :
    docstringsAfter before (itemsFrom pending (Laid.layOut line stretches)) =
      (EntrySite.sitesFrom above (Laid.layOut line stretches)).map EntrySite.doc := by
  induction stretches generalizing above before pending line with
  | nil => cases pending <;> rfl
  | cons s r ih =>
    rcases s with _ | ⟨text, more⟩ | ⟨more, trailing⟩
    · rw [Laid.layOut, itemsFrom, docstringsAfter_close]
      exact ih stands.blank (by simp) (by rw [Laid.runAbove_concat_other _ rfl]; rfl)
    · refine ih (.extend pending text line) (by simpa using filled_extend pending text line _) ?_
      rw [ownTexts_extend filled, own, Laid.runAbove_concat_comment _ rfl]
      simp [Laid.texts, Stretch.text?]
    · have next : line + (Stretch.entry more trailing).height = line + more + 1 := rfl
      have further := @ih (above ++ [⟨line, .entry more trailing⟩]) _ _ _
        (.behind line (line + more) trailing) (filled_behind _ trailing)
        (by rw [ownTexts_behind, Laid.runAbove_concat_other _ rfl]; rfl)
      rw [Laid.layOut, next, itemsFrom, docstringsAfter_close, docstringsAfter,
        docAbove_close stands, own, docBehind_eq, docBelow_itemsFrom, further, EntrySite.sitesFrom,
        List.map_cons, EntrySite.doc_eq]

/-- Each entry is documented by the first candidate next to it that says something, and no line
documents two entries. -/
theorem docstrings_nearest (line : Nat) (stretches : List Stretch) :
    (EntrySite.sites (Laid.layOut line stretches)).map EntrySite.laid =
        (Laid.layOut line stretches).filter Laid.isEntry ∧
      docstrings (readAll (Laid.layOut line stretches)) =
        (EntrySite.sites (Laid.layOut line stretches)).map EntrySite.doc ∧
      (EntrySite.sites (Laid.layOut line stretches)).Pairwise
        fun s t => s.sources.Disjoint t.sources := by
  refine ⟨EntrySite.sitesFrom_map_laid [] _, ?_, EntrySite.sources_pairwise line stretches⟩
  rw [readAll_eq, docstrings]
  exact docstringsAfter_itemsFrom stretches (.clear (by simp [block?])) (by simp) rfl

example : docstrings (readAll (Laid.layOut 1 [.comment "% Doc for A." 0,
    .entry 0 (some "% A trailing"), .comment "% B doc continued" 0, .entry 0 none, .entry 0 none,
    .comment "% After C." 0, .blank, .entry 0 (some "% D trailing"), .comment "% Not for D." 0,
    .entry 0 none])) =
    [some "Doc for A.", some "B doc continued", some "After C.", some "D trailing",
      some "Not for D."] := by
  decide +kernel

end ListItem

end MatlabOutline
