import MatlabOutline.Proofs.Docstring.Lines

/-!
What cleaning leaves of comments: lines without blank ends, with text on the first and the last of them
and no margin before one of them. Main statement: the text of a run of comments is empty or consists of
such lines, and it is cleaned to itself again when each of its lines is made a comment
(`clean_settled`).
-/

namespace MatlabOutline

namespace Docstring

/-- Lines that cleaning has nothing to take away from. -/
structure IsClean (lines : List (List Char)) : Prop where
  first : lines.head? ≠ some []
  last : lines.getLast? ≠ some []
  /-- No line ends in white space. -/
  trimmed : ∀ line ∈ lines, line.getLast?.any isBlank = false
  /-- Some line begins with neither a space nor a tab. -/
  flush : ∃ line ∈ lines, ∃ c, line.head? = some c ∧ isIndent c = false

section Margin

theorem isBlank_of_isIndent {c : Char} (indent : isIndent c = true) : isBlank c = true := by
  rcases (by simpa [isIndent] using indent : c = ' ' ∨ c = '\t') with rfl | rfl <;> decide

theorem exists_solid {line : List Char} (filled : Text.allBlank line = false) :
    ∃ c ∈ line, isBlank c = false := by
  simpa [Text.allBlank] using filled

/-- The margin is the indentation of some line with text. -/
theorem exists_indentOf_eq_margin {lines : List (List Char)}
    (some_filled : ∃ line ∈ lines, Text.allBlank line = false) :
    ∃ line ∈ lines, Text.allBlank line = false ∧ indentOf line = margin lines := by
  obtain ⟨line, member, filled⟩ := some_filled
  have listed : indentOf line ∈ (lines.filter (!Text.allBlank ·)).map indentOf :=
    List.mem_map_of_mem (List.mem_filter.mpr ⟨member, by simp [filled]⟩)
  obtain ⟨width, least⟩ := Option.isSome_iff_exists.mp (List.isSome_min?_of_mem listed)
  obtain ⟨attains, among, rfl⟩ := List.mem_map.mp (List.min?_mem least)
  obtain ⟨inside, solid⟩ := List.mem_filter.mp among
  exact ⟨attains, inside, by simpa using solid, by rw [margin, least]; rfl⟩

theorem drop_indentOf (line : List Char) : line.drop (indentOf line) = line.dropWhile isIndent := by
  have whole := List.takeWhile_append_dropWhile (p := isIndent) (l := line)
  calc line.drop (indentOf line)
      = (line.takeWhile isIndent ++ line.dropWhile isIndent).drop (indentOf line) := by rw [whole]
    _ = line.dropWhile isIndent := List.drop_left

/-- A line loses its own indentation and the white space at its end. -/
theorem dedent_indentOf (line : List Char) :
    dedent (indentOf line) line = Text.trimEnd (line.dropWhile isIndent) := by
  rw [dedent, drop_indentOf]
  split
  · next blank =>
    symm
    rw [Text.trimEnd_eq_nil_iff, Text.allBlank, List.all_eq_true]
    exact fun c member => List.all_eq_true.mp blank c ((List.dropWhile_sublist _).subset member)
  · rfl

/-- A line with text begins with it once the indentation is gone. -/
theorem head?_trimEnd_dropWhile {line : List Char} (filled : Text.allBlank line = false) :
    ∃ c, (Text.trimEnd (line.dropWhile isIndent)).head? = some c ∧ isIndent c = false := by
  obtain ⟨solid, inside, other⟩ := exists_solid filled
  have kept : Text.trimEnd (line.dropWhile isIndent) ≠ [] := by
    rw [Ne, Text.trimEnd_eq_nil_iff, Text.allBlank, List.all_eq_true]
    intro blank
    rw [← List.takeWhile_append_dropWhile (p := isIndent) (l := line), List.mem_append] at inside
    rcases inside with indent | behind
    · simp [isBlank_of_isIndent (List.all_eq_true.mp List.all_takeWhile solid indent)] at other
    · simp [blank solid behind] at other
  obtain ⟨c, r, text⟩ := List.exists_cons_of_ne_nil kept
  have initial : c :: r <+: line.dropWhile isIndent := text ▸ Text.trimEndBy_initial _ _
  obtain ⟨more, whole⟩ := initial
  have first := List.head?_dropWhile_not isIndent line
  rw [← whole] at first
  exact ⟨c, by rw [text]; rfl, by simpa using first⟩

theorem getLast?_dedent (width : Nat) (line : List Char) :
    (dedent width line).getLast?.any isBlank = false := by
  unfold dedent
  split
  · rfl
  · exact Text.getLast?_trimEnd _

theorem dedent_of_blank {line : List Char} (blank : Text.allBlank line = true) (width : Nat) :
    dedent width line = [] :=
  if_pos blank

end Margin

section OuterBlank

theorem mem_dropWhile_of_not {α : Type} {p : α → Bool} {x : α} {xs : List α} (member : x ∈ xs)
    (other : p x = false) : x ∈ xs.dropWhile p := by
  rw [← List.takeWhile_append_dropWhile (p := p) (l := xs), List.mem_append] at member
  rcases member with front | behind
  · simp [List.all_eq_true.mp List.all_takeWhile x front] at other
  · exact behind

/-- No line with text is dropped. -/
theorem mem_dropOuterBlank_of_ne_nil {lines : List (List Char)} {line : List Char}
    (member : line ∈ lines) (filled : line ≠ []) : line ∈ dropOuterBlank lines := by
  have solid : line.isEmpty = false := by simpa using filled
  exact List.mem_reverse.mpr (mem_dropWhile_of_not
    (List.mem_reverse.mpr (mem_dropWhile_of_not member solid)) solid)

theorem getLast?_dropOuterBlank (lines : List (List Char)) :
    (dropOuterBlank lines).getLast? ≠ some [] := by
  have first := List.head?_dropWhile_not List.isEmpty (lines.dropWhile List.isEmpty).reverse
  rw [dropOuterBlank, List.getLast?_reverse]
  intro empty
  rw [empty] at first
  cases first

theorem dropWhile_isEmpty {lines : List (List Char)} (first : lines.head? ≠ some []) :
    lines.dropWhile List.isEmpty = lines := by
  rcases lines with _ | ⟨line, lines⟩
  · rfl
  · exact List.dropWhile_cons_of_neg (by simpa using first)

theorem dropOuterBlank_of_filled {lines : List (List Char)} (first : lines.head? ≠ some [])
    (last : lines.getLast? ≠ some []) : dropOuterBlank lines = lines := by
  rw [dropOuterBlank, dropWhile_isEmpty first, dropWhile_isEmpty (by rwa [List.head?_reverse]),
    List.reverse_reverse]

end OuterBlank

/-- The lines that are left of comments are clean. -/
theorem isClean_linesOf {comments : List String} (said : linesOf comments ≠ []) :
    IsClean (linesOf comments) := by
  unfold linesOf at said ⊢
  generalize (comments.flatMap fun comment => commentLines comment.toList) = lines at said ⊢
  have first := head?_dropOuterBlank (lines.map (dedent (margin lines)))
  refine ⟨first, getLast?_dropOuterBlank _, ?_, ?_⟩
  · intro line member
    obtain ⟨whole, -, rfl⟩ := List.mem_map.mp (mem_dropOuterBlank member)
    exact getLast?_dedent _ whole
  · have some_filled : ∃ line ∈ lines, Text.allBlank line = false := by
      obtain ⟨top, more, shape⟩ := List.exists_cons_of_ne_nil said
      have member : top ∈ lines.map (dedent (margin lines)) :=
        mem_dropOuterBlank (shape ▸ List.mem_cons_self)
      obtain ⟨whole, inside, cut⟩ := List.mem_map.mp member
      refine ⟨whole, inside, ?_⟩
      by_contra blank
      rw [Bool.not_eq_false] at blank
      rw [shape, ← cut, dedent_of_blank blank] at first
      exact first rfl
    obtain ⟨line, member, filled, attains⟩ := exists_indentOf_eq_margin some_filled
    obtain ⟨c, start, solid⟩ := head?_trimEnd_dropWhile filled
    rw [← dedent_indentOf, attains] at start
    refine ⟨_, mem_dropOuterBlank_of_ne_nil (List.mem_map_of_mem member) ?_, c, start, solid⟩
    intro empty
    rw [empty] at start
    cases start

/-- A line as a comment. -/
def remark (line : List Char) : String :=
  String.ofList ('%' :: ' ' :: line)

theorem commentLines_remark (line : List Char) : commentLines (remark line).toList = [' ' :: line] := by
  rw [remark, String.toList_ofList, commentLines, if_neg (by simp), Text.trimStart,
    List.dropWhile_cons_of_neg (by decide)]
  simp

theorem lines_remarks (lines : List (List Char)) :
    ((lines.map remark).flatMap fun comment => commentLines comment.toList) = lines.map (' ' :: ·) := by
  induction lines with
  | nil => rfl
  | cons line lines ih => rw [List.map_cons, List.flatMap_cons, commentLines_remark, ih]; rfl

section Remarks

variable {lines : List (List Char)} {line : List Char}

/-- Without a blank end only the empty line is blank. -/
theorem eq_nil_of_blank (trimmed : line.getLast?.any isBlank = false)
    (blank : Text.allBlank (' ' :: line) = true) : line = [] := by
  rcases line.eq_nil_or_concat' with rfl | ⟨front, c, rfl⟩
  · rfl
  · have solid : isBlank c = false := by simpa using trimmed
    have last := List.all_eq_true.mp blank c (by simp)
    rw [solid] at last
    cases last

theorem dedent_remark (trimmed : line.getLast?.any isBlank = false) :
    dedent 1 (' ' :: line) = line := by
  unfold dedent
  split
  · next blank => exact (eq_nil_of_blank trimmed blank).symm
  · exact Text.trimEnd_of_solid trimmed

/-- The margin of clean lines that are made comments is the one space in front of them. -/
theorem margin_remarks (clean : IsClean lines) : margin (lines.map (' ' :: ·)) = 1 := by
  obtain ⟨line, member, c, start, solid⟩ := clean.flush
  have wide (line : List Char) : indentOf (' ' :: line) = indentOf line + 1 := by
    simp [indentOf, isIndent]
  have narrow : indentOf line = 0 := by
    obtain ⟨r, rfl⟩ := List.head?_eq_some_iff.mp start
    simp [indentOf, solid]
  have filled : Text.allBlank (' ' :: line) = false := by
    by_contra blank
    rw [Bool.not_eq_false] at blank
    rw [eq_nil_of_blank (clean.trimmed line member) blank] at start
    cases start
  have listed : ' ' :: line ∈ lines.map (' ' :: ·) := List.mem_map_of_mem member
  apply Nat.le_antisymm
  · have least := margin_le listed filled
    rwa [wide, narrow] at least
  · obtain ⟨attains, among, -, least⟩ := exists_indentOf_eq_margin ⟨_, listed, filled⟩
    obtain ⟨other, -, rfl⟩ := List.mem_map.mp among
    rw [← least, wide]
    omega

/-- Clean lines that are made comments are cleaned to themselves. -/
theorem linesOf_remarks (clean : IsClean lines) : linesOf (lines.map remark) = lines := by
  have kept : (lines.map (' ' :: ·)).map (dedent 1) = lines := by
    rw [List.map_map]
    conv => rhs; rw [← List.map_id lines]
    exact List.map_congr_left fun line member => dedent_remark (clean.trimmed line member)
  rw [linesOf, lines_remarks, margin_remarks clean, kept,
    dropOuterBlank_of_filled clean.first clean.last]

end Remarks

/-- The lines of a docstring, which has no line end behind the last of them. -/
def linesIn (text : String) : List (List Char) :=
  Text.splitAt '\n' text.toList

theorem linesIn_clean {comments : List String} (fits : ∀ comment ∈ comments, OnLines comment)
    (said : linesOf comments ≠ []) : linesIn (clean comments) = linesOf comments := by
  rw [linesIn, clean, String.toList_ofList]
  exact Text.splitAt_joinWith said fun line member => (mem_linesOf fits member).1

/-- What is cleaned is clean: the text is empty, or its first and last line are not, no line ends in
white space, and some line has no margin. So it comes out again when each line is made a comment. -/
theorem clean_settled {comments : List String} (fits : ∀ comment ∈ comments, OnLines comment) :
    (clean comments = "" ∨ IsClean (linesIn (clean comments))) ∧
      clean ((linesIn (clean comments)).map remark) = clean comments := by
  by_cases said : linesOf comments = []
  · have empty : clean comments = "" := by
      rw [clean, said]
      rfl
    rw [empty]
    exact ⟨.inl rfl, by decide⟩
  · have settled := isClean_linesOf said
    rw [linesIn_clean fits said]
    refine ⟨.inr settled, ?_⟩
    rw [clean, linesOf_remarks settled, clean]

/-- Comments of two kinds, with a tab, a no-break space, a blank line and a carriage return among them. -/
theorem clean_settled_mixed :
    clean ["%\t a\r", "%", "%\x7b\r\n \t\xa0b\r\n%\x7d\n"] = "a\n\n\xa0b" ∧
      IsClean (linesIn "a\n\n\xa0b") ∧ clean ["% a", "% ", "% \xa0b"] = "a\n\n\xa0b" := by
  have text : clean ["%\t a\r", "%", "%\x7b\r\n \t\xa0b\r\n%\x7d\n"] = "a\n\n\xa0b" := by
    decide +kernel
  obtain ⟨settled, again⟩ :=
    @clean_settled ["%\t a\r", "%", "%\x7b\r\n \t\xa0b\r\n%\x7d\n"] (by
      unfold OnLines
      decide +kernel)
  rw [text] at settled again
  exact ⟨text, settled.resolve_left (by decide), again⟩

end Docstring

end MatlabOutline
