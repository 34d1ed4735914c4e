import MatlabOutline.Docstring.Association
import MatlabOutline.Proofs.WellFormed.Entity

/-!
The lines of comments, and what cleaning leaves of them: lines without line ends, of which the first
is not empty.
-/

namespace MatlabOutline

namespace Text

theorem isTrimmed_trim {cs : List Char} (filled : String.ofList (trim cs) ≠ "") :
    IsTrimmed (String.ofList (trim cs)) := by
  refine ⟨filled, ?_, ?_⟩
  · rw [String.toList_ofList]
    have initial : trim cs <+: trimStart cs := List.rdropWhile_prefix isBlank (trimStart cs)
    have front := head?_trimStart cs
    rcases text : trim cs with _ | ⟨c, r⟩
    · rfl
    · obtain ⟨more, whole⟩ := text ▸ initial
      rw [← whole] at front
      exact front
  · rw [String.toList_ofList]
    exact getLast?_trimEnd (trimStart cs)

theorem pieces_of_not_mem {line : List Char} (filled : line ≠ []) (within : '\n' ∉ line) :
    pieces line = [line] := by
  induction line with
  | nil => exact absurd rfl filled
  | cons c line ih =>
    rw [List.mem_cons, not_or] at within
    rw [pieces.eq_3 _ _ (Ne.symm within.1)]
    rcases line with _ | ⟨d, line⟩
    · rfl
    · rw [ih (by simp) within.2]

theorem pieces_append {line : List Char} (within : '\n' ∉ line) (below : List Char) :
    pieces (line ++ '\n' :: below) = (line ++ ['\n']) :: pieces below := by
  induction line with
  | nil => rfl
  | cons c line ih =>
    rw [List.mem_cons, not_or] at within
    rw [List.cons_append, pieces.eq_3 _ _ (Ne.symm within.1), ih within.2]
    rfl

theorem pieces_cases (cs : List Char) : ∀ piece ∈ pieces cs,
    '\n' ∉ piece ∨ ∃ line, '\n' ∉ line ∧ piece = line ++ ['\n'] := by
  fun_induction pieces cs with
  | case1 => simp
  | case2 r ih => exact List.forall_mem_cons.mpr ⟨.inr ⟨[], by simp, rfl⟩, ih⟩
  | case3 c r other none ih => simpa using .inl fun same => other same.symm
  | case4 c r other p ps some ih =>
    rw [some, List.forall_mem_cons] at ih
    refine List.forall_mem_cons.mpr ⟨?_, ih.2⟩
    have away : '\n' ≠ c := fun same => other same.symm
    rcases ih.1 with within | ⟨line, within, rfl⟩
    · exact .inl (by simp [away, within])
    · exact .inr ⟨c :: line, by simp [away, within], rfl⟩

theorem chomp_of_not_mem {line : List Char} (within : '\n' ∉ line) : chomp line = line := by
  unfold chomp
  rcases back : line.reverse with _ | ⟨c, r⟩
  · rfl
  · have other : c ≠ '\n' := by
      rintro rfl
      exact within (List.mem_reverse.mp (back ▸ List.mem_cons_self))
    simp [other]

theorem chomp_line_initial (line : List Char) : chomp (line ++ ['\n']) <+: line := by
  unfold chomp
  rw [List.reverse_append, List.reverse_singleton, List.singleton_append]
  rcases back : line.reverse with _ | ⟨c, r⟩
  · simp
  · have whole : line = r.reverse ++ [c] := by
      rw [← List.reverse_reverse line, back, List.reverse_cons]
    by_cases carriage : c = '\r'
    · simp [carriage, whole]
    · simp [carriage, whole]

/-- A line is what stands before a line end. -/
theorem feed_not_mem_lines {cs line : List Char} (member : line ∈ lines cs) : '\n' ∉ line := by
  obtain ⟨piece, cut, rfl⟩ := List.mem_map.mp member
  rcases pieces_cases cs piece cut with within | ⟨body, within, rfl⟩
  · rwa [chomp_of_not_mem within]
  · exact fun feed => within ((chomp_line_initial body).subset feed)

/-- The first line of lines that are joined. -/
theorem head?_lines_joinWith {line : List Char} {more : List (List Char)} (filled : line ≠ [])
    (within : '\n' ∉ line) (ended : line.getLast? ≠ some '\r') :
    (lines (joinWith '\n' (line :: more))).head? = some line := by
  have last : line.reverse.head? ≠ some '\r' := by rwa [List.head?_reverse]
  have chomped : chomp (line ++ ['\n']) = line := by
    unfold chomp
    rw [List.reverse_append, List.reverse_singleton, List.singleton_append]
    rcases back : line.reverse with _ | ⟨c, r⟩
    · rw [List.reverse_eq_nil_iff] at back
      exact absurd back filled
    · have other : c ≠ '\r' := by simpa [back] using last
      have whole : line = (c :: r).reverse := by rw [← back, List.reverse_reverse]
      simp [other, whole]
  rcases more with _ | ⟨next, more⟩
  · have only : joinWith '\n' [line] = line := by simp [joinWith, List.intercalate]
    rw [lines, only, pieces_of_not_mem filled within]
    simp [chomp_of_not_mem within]
  · have cut : joinWith '\n' (line :: next :: more) = line ++ '\n' :: joinWith '\n' (next :: more) := by
      simp [joinWith, List.intercalate]
    rw [lines, cut, pieces_append within]
    simp [chomped]

end Text

namespace Docstring

theorem isSaid_ofComments (comments : List String) : IsSaid (ofComments comments) := by
  unfold IsSaid ofComments ofText
  split
  · simp
  · next said => simpa using said

theorem IsSaid.orElse {a b : Option String} (first : IsSaid a) (second : IsSaid b) :
    IsSaid (a <|> b) := by
  cases a with
  | none => simpa using second
  | some text => simpa using first

/-- No line of text is indented less than the margin. -/
theorem margin_le {lines : List (List Char)} {line : List Char} (member : line ∈ lines)
    (filled : Text.allBlank line = false) : margin lines ≤ indentOf line := by
  have listed : indentOf line ∈ (lines.filter (!Text.allBlank ·)).map indentOf :=
    List.mem_map_of_mem (List.mem_filter.mpr ⟨member, by simp [filled]⟩)
  rw [margin]
  rcases least : ((lines.filter (!Text.allBlank ·)).map indentOf).min? with _ | width
  · exact Nat.zero_le _
  · exact (List.min?_eq_some_iff.mp least).2 _ listed

theorem head?_dropOuterBlank (lines : List (List Char)) :
    (dropOuterBlank lines).head? ≠ some [] := by
  intro empty
  have first := List.head?_dropWhile_not List.isEmpty lines
  have initial : dropOuterBlank lines <+: lines.dropWhile List.isEmpty :=
    List.rdropWhile_prefix List.isEmpty (lines.dropWhile List.isEmpty)
  obtain ⟨more, whole⟩ := initial
  obtain ⟨rest, shape⟩ := List.head?_eq_some_iff.mp empty
  rw [← whole, shape] at first
  simp at first

theorem mem_dropOuterBlank {lines : List (List Char)} {line : List Char}
    (member : line ∈ dropOuterBlank lines) : line ∈ lines :=
  (List.dropWhile_sublist _).subset (List.mem_reverse.mp
    ((List.dropWhile_sublist _).subset (List.mem_reverse.mp member)))

/-- A comment that stays on one line, unless it has the mark of a block. -/
def OnLines (comment : String) : Prop :=
  '\n' ∈ comment.toList → ['%', '\x7b'].isPrefixOf comment.toList = true

/-- The lines of a comment have no line ends in them. -/
theorem feed_not_mem_commentLines {comment : String} (fits : OnLines comment) :
    ∀ line ∈ commentLines comment.toList, '\n' ∉ line := by
  intro line member
  unfold commentLines at member
  split at member
  · have inner : line ∈ (Text.lines comment.toList).drop 1 := by
      simp only at member
      split at member
      · exact List.dropLast_subset _ member
      · exact member
    exact Text.feed_not_mem_lines (List.mem_of_mem_drop inner)
  · next plain =>
    obtain rfl := List.mem_singleton.mp member
    intro feed
    have inside : '\n' ∈ comment.toList :=
      (List.dropWhile_sublist _).subset ((List.dropWhile_sublist _).subset feed)
    exact plain (fits inside)

theorem mem_linesOf {comments : List String} (fits : ∀ comment ∈ comments, OnLines comment)
    {line : List Char} (member : line ∈ linesOf comments) :
    '\n' ∉ line ∧ line.getLast? ≠ some '\r' := by
  obtain ⟨whole, inside, rfl⟩ := List.mem_map.mp (mem_dropOuterBlank member)
  obtain ⟨comment, given, among⟩ := List.mem_flatMap.mp inside
  have within := feed_not_mem_commentLines (fits comment given) whole among
  unfold dedent
  split
  · simp
  · constructor
    · intro feed
      exact within (List.mem_of_mem_drop ((List.rdropWhile_prefix isBlank _).subset feed))
    · intro carriage
      have back := carriage ▸ Text.getLast?_trimEnd (whole.drop _)
      exact absurd back (by decide)

/-- The first line of a docstring says something. -/
theorem head?_lines_clean {comments : List String} (fits : ∀ comment ∈ comments, OnLines comment)
    {line : List Char} (first : (Text.lines (clean comments).toList).head? = some line) :
    line ≠ [] := by
  rw [clean, String.toList_ofList] at first
  rcases shape : linesOf comments with _ | ⟨top, more⟩
  · rw [shape] at first
    simp [Text.joinWith, List.intercalate, Text.lines, Text.pieces] at first
  · have filled : top ≠ [] := by
      rintro rfl
      exact head?_dropOuterBlank _ (by rw [← linesOf, shape]; rfl)
    obtain ⟨within, ended⟩ := mem_linesOf fits (shape ▸ List.mem_cons_self)
    rw [shape, Text.head?_lines_joinWith filled within ended] at first
    exact Option.some.inj first ▸ filled

end Docstring

namespace ListItem

/-- The comment behind an entry is on its line. -/
def Fits : ListItem → Prop
  | comment _ => True
  | entry span => ∀ text, span.trailing = some text → Docstring.OnLines text

theorem isSaid_docAbove (before : Option ListItem) (span : EntrySpan) :
    Docstring.IsSaid (docAbove before span) := by
  unfold docAbove
  split
  · split
    · exact Docstring.isSaid_ofComments _
    · simp [Docstring.IsSaid]
  · simp [Docstring.IsSaid]

theorem isSaid_docBehind {span : EntrySpan} (fits : (entry span).Fits) :
    Docstring.IsSaid (docBehind span) := by
  intro empty
  simp only [docBehind, Option.bind_eq_bind, Option.bind_eq_some_iff, Option.pure_def,
    Option.some.injEq] at empty
  obtain ⟨text, behind, doc, said, line, first, blank⟩ := empty
  have whole : doc = Docstring.clean [text] := by
    unfold Docstring.ofComments Docstring.ofText at said
    split at said
    · simp at said
    · exact (Option.some.inj said).symm
  have alone : ∀ comment ∈ [text], Docstring.OnLines comment := by simpa using fits text behind
  have filled := Docstring.head?_lines_clean alone (whole ▸ first)
  exact filled (by simpa using blank)

theorem isSaid_docBelow (span : EntrySpan) (after : List ListItem) :
    Docstring.IsSaid (docBelow span after) := by
  unfold docBelow
  split
  · next block here =>
    by_cases near : (if block.afterEntry then span.lastLine + 1 else block.firstLine) =
        span.lastLine + 1 ∧ beginsOn (block.lastLine + 1) after[1]? = false
    · rw [if_pos near]
      exact Docstring.isSaid_ofComments _
    · rw [if_neg near]
      simp [Docstring.IsSaid]
  · simp [Docstring.IsSaid]

/-- No docstring of an entry is empty. -/
theorem isSaid_docstrings {items : List ListItem} (fits : ∀ item ∈ items, item.Fits) :
    ∀ doc ∈ docstrings items, Docstring.IsSaid doc := by
  have after (before : Option ListItem) :
      ∀ doc ∈ docstringsAfter before items, Docstring.IsSaid doc := by
    fun_induction docstringsAfter before items with
    | case1 => simp
    | case2 before block r ih => exact ih (List.forall_mem_cons.mp fits).2
    | case3 before span r ih =>
      obtain ⟨here, later⟩ := List.forall_mem_cons.mp fits
      refine List.forall_mem_cons.mpr ⟨?_, ih later⟩
      exact Docstring.IsSaid.orElse (isSaid_docAbove before span)
        (Docstring.IsSaid.orElse (isSaid_docBehind here) (isSaid_docBelow span r))
  exact after none

end ListItem

end MatlabOutline
