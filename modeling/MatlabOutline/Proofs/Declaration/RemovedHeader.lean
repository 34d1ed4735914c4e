import MatlabOutline.Proofs.Declaration.UnitOpening
import MatlabOutline.Proofs.Lexing.LineCuts
import MatlabOutline.Proofs.Normalize.Origins

/-!
The header of a text. Main statement: what is left without the header is lexed as before, on lines that are
lower by those of the header; it begins with a line that holds a significant token, declares what the whole text
declares, and has no header any more (`removeHeader_tokens`).
-/

namespace MatlabOutline

/-- Either the tokens are header from end to end, or whole lines of them are, and the first token that is not
stands on the line behind. -/
theorem dropHeader_cut (line ts : List Token) (idle : ∀ t ∈ line, t.isHeader = true ∧ t.isNewline = false) :
    ((∀ t ∈ ts, t.isHeader = true) ∧ dropHeader line ts = []) ∨
      ∃ header margin first rest, line ++ ts = header ++ (margin ++ first :: rest) ∧
        dropHeader line ts = margin ++ first :: rest ∧ (∀ t ∈ header, t.isHeader = true) ∧
        header.getLast?.all Token.isNewline = true ∧
        (∀ t ∈ margin, t.isHeader = true ∧ t.isNewline = false) ∧ first.isHeader = false := by
  fun_induction dropHeader line ts with
  | case1 line => simp
  | case2 line t r newline ih =>
    have quiet : t.isHeader = true := by simp [Token.isHeader, Token.isSpacing, newline]
    rcases ih (by simp) with ⟨all, nothing⟩ | ⟨header, margin, first, rest, cut, left, inside, ended, further⟩
    · exact .inl ⟨by simpa [quiet] using all, nothing⟩
    refine .inr ⟨line ++ t :: header, margin, first, rest, by simp_all, left, ?_, ?_, further⟩
    · simp only [List.forall_mem_append, List.forall_mem_cons]
      exact ⟨fun u member => (idle u member).1, quiet, inside⟩
    · rw [List.getLast?_append_of_ne_nil _ (List.cons_ne_nil t header)]
      rcases header with _ | ⟨u, header⟩
      · simpa using newline
      · simpa using ended
  | case3 line t r going quiet ih =>
    have longer : ∀ u ∈ line ++ [t], u.isHeader = true ∧ u.isNewline = false := by
      rw [List.forall_mem_append, List.forall_mem_singleton]
      exact ⟨idle, quiet, by simpa using going⟩
    simpa [quiet] using ih longer
  | case4 line t r going code => exact .inr ⟨[], line, t, r, by simp, rfl, by simp, rfl, idle, by simpa using code⟩

/-- What a unit declares does not depend on where it stands. -/
theorem classify_below (n : Nat) (ts : List Token) : classify (ts.map (Token.below n)) = classify ts := by
  rw [classify, classify, List.find?_map]
  cases found : ts.find? (Token.isSignificant ∘ Token.below n) with
  | none =>
    rw [show ts.find? Token.isSignificant = none from found]
    rfl
  | some t =>
    rw [show ts.find? Token.isSignificant = some t from found]
    rfl

/-- Before the first significant token of a line stands white space, as behind a comment there is the end of the
line. -/
theorem isWhitespace_of_margin {source : String} {before margin rest : List Token} {first : Token}
    (cut : tokenize source = before ++ (margin ++ first :: rest))
    (idle : ∀ t ∈ margin, t.isHeader = true ∧ t.isNewline = false) (code : first.isHeader = false) :
    ∀ t ∈ margin, t.isWhitespace = true := by
  intro t member
  obtain ⟨front, back, rfl⟩ := List.append_of_mem member
  obtain ⟨quiet, going⟩ := idle t member
  by_contra solid
  have comment : t.kind = .comment := by simpa [Token.isHeader, Token.isSpacing, going, solid] using quiet
  have open' : ∀ u ∈ back ++ [first], u.isNewline = false := by
    have going : first.isNewline = false := by
      simp only [Token.isHeader, Token.isSpacing, Bool.or_eq_false_iff] at code
      exact code.1.2
    rw [List.forall_mem_append, List.forall_mem_singleton]
    exact ⟨fun u inside => (idle u (by simp [inside])).2, going⟩
  obtain ⟨u, further, next⟩ := List.exists_cons_of_ne_nil (l := back ++ [first]) (by simp)
  have cut' : tokenize source = (before ++ front) ++ t :: u :: (further ++ rest) := by
    rw [cut, ← List.cons_append, ← next]
    simp
  have newline := newline_of_comment cut' comment
  rw [open' u (by simp [next])] at newline
  cases newline

/-- A text that begins with its first significant line: the line is the first one, and there is no header. -/
theorem removeHeader_of_margin {source : String} {margin rest : List Token} {first : Token}
    (cut : tokenize source = margin ++ first :: rest)
    (idle : ∀ t ∈ margin, t.isHeader = true ∧ t.isNewline = false) (code : first.isHeader = false) :
    first.line = 1 ∧ removeHeader source = source := by
  have cut' : tokenize source = [] ++ (margin ++ first :: rest) := cut
  have inside : ∀ t ∈ margin, t ∈ tokenize source := fun t member => by simp [cut, member]
  have level : Text.feeds (Token.concat margin).toList = 0 := Token.feeds_concat_eq_zero fun t member =>
    feeds_of_whitespace (inside t member) (isWhitespace_of_margin cut' idle code t member)
  refine ⟨by rw [line_of_tokenize cut, level], ?_⟩
  rw [removeHeader, cut, dropHeader_margin idle code, List.nil_append, ← cut, concat_tokenize]

theorem headerLines_eq {code header : String} (cut : code = header ++ removeHeader code) :
    headerLines code = Text.feeds header.toList := by
  have total := congrArg (Text.feeds ∘ String.toList) cut
  rw [Function.comp_apply, Function.comp_apply, String.toList_append, Text.feeds_append] at total
  rw [headerLines]
  omega

/-- Removing the header goes along with lexing. What is removed holds white space, comments and line ends only,
and ends with a line, unless the text has nothing else. The tokens of what is left are the further tokens of the
text, as many lines further up as were removed. The first line of it holds a significant token, so that it
declares what the text declares, and is kept when its header is to be removed. -/
theorem removeHeader_tokens (code : String) :
    ∃ header, code = header ++ removeHeader code ∧ headerLines code = Text.feeds header.toList ∧
      (∀ t ∈ tokenize header, t.isHeader = true) ∧
      ((∃ t ∈ tokenize code, t.isSignificant = true) → endsLine header = true) ∧
      ((∀ t ∈ tokenize code, t.isSignificant = false) → header = code) ∧
      tokenize code =
        tokenize header ++ (tokenize (removeHeader code)).map (Token.below (headerLines code)) ∧
      (removeHeader code ≠ "" → ∃ t ∈ tokenize (removeHeader code), t.isSignificant = true ∧ t.line = 1) ∧
      classify (tokenize (removeHeader code)) = classify (tokenize code) ∧
      removeHeader (removeHeader code) = removeHeader code := by
  rcases dropHeader_cut [] (tokenize code) (by simp) with
    ⟨quiet, nothing⟩ | ⟨header, margin, first, rest, cut, left, quiet, ended, idle, solid⟩
  · have empty : removeHeader code = "" := by rw [removeHeader, nothing, Token.concat_nil]
    have none : tokenize "" = [] := by simp [tokenize, Lexer.lexemes, Token.place]
    have same : classify [] = classify (tokenize code) := by
      rw [← classify_append quiet [], List.append_nil]
    have whole : code = code ++ removeHeader code := by rw [empty, String.append_empty]
    refine ⟨code, whole, headerLines_eq whole, quiet, ?_, fun _ => rfl, ?_, fun more => absurd empty more, ?_, ?_⟩
    · rintro ⟨t, member, significant⟩
      simp [Token.isSignificant, quiet t member] at significant
    · rw [empty, none, List.map_nil, List.append_nil]
    · rw [empty, none, same]
    · rw [empty, removeHeader, none]
      rfl
  · rw [List.nil_append] at cut
    have result : removeHeader code = Token.concat (margin ++ first :: rest) := by rw [removeHeader, left]
    have whole : code = Token.concat header ++ removeHeader code := by
      rw [result, ← Token.concat_append, ← cut, concat_tokenize]
    have lines := headerLines_eq whole
    obtain ⟨alone, moved⟩ := tokenize_concat cut ended
    rw [← result, ← lines] at moved
    obtain ⟨margin', later, cut', rfl, more⟩ := List.map_eq_append_iff.mp moved
    obtain ⟨first', rest', rfl, rfl, rfl⟩ := List.map_eq_cons_iff.mp more
    have idle' : ∀ t ∈ margin', t.isHeader = true ∧ t.isNewline = false := fun t member =>
      idle (t.below (headerLines code)) (List.mem_map_of_mem member)
    obtain ⟨top, kept⟩ := removeHeader_of_margin cut' idle' solid
    have significant : first'.isSignificant = true := by
      rw [Token.isSignificant, show first'.isHeader = false from solid, Bool.not_false]
    refine ⟨Token.concat header, whole, lines, by rwa [alone], fun _ => by rwa [endsLine, alone], ?_, ?_,
      fun _ => ⟨first', by simp [cut'], significant, top⟩, ?_, kept⟩
    · intro silent
      have none := silent (first'.below (headerLines code)) (by simp [cut])
      rw [show (first'.below (headerLines code)).isSignificant = true from significant] at none
      cases none
    · rw [alone, moved, cut]
    · rw [cut, classify_append quiet, ← moved, classify_below]

/-- A block comment over three lines and a blank line are removed, and the line with the name is kept. -/
theorem removeHeader_block_comment :
    ∃ header, "%\x7b\na\n%\x7d\r\n\n  x % b" = header ++ removeHeader "%\x7b\na\n%\x7d\r\n\n  x % b" ∧
      endsLine header = true ∧
      ∃ t ∈ tokenize (removeHeader "%\x7b\na\n%\x7d\r\n\n  x % b"), t.isSignificant = true ∧ t.line = 1 := by
  obtain ⟨header, cut, -, -, ended, -, -, first, -⟩ := removeHeader_tokens "%\x7b\na\n%\x7d\r\n\n  x % b"
  exact ⟨header, cut, ended (by decide +kernel), first (by decide +kernel)⟩

end MatlabOutline
