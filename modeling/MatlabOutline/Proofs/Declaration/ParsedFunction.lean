import MatlabOutline.Proofs.Declaration.FunctionText

/-!
Functions are read as they were written. Main statement: a text with a header, a signature and comment lines
declares the function that the signature says, with the docstring that the comments say
(`parseUnit_functionText`).
-/

namespace MatlabOutline

/-- Whole lines that hold nothing else are dropped with the header. -/
theorem dropHeader_append {header : List Token} (quiet : ∀ t ∈ header, t.isHeader = true)
    (whole : header.getLast?.all Token.isNewline = true) (rest : List Token) :
    dropHeader [] (header ++ rest) = dropHeader [] rest := by
  have filled {ts : List Token} (some : ts ≠ []) (quiet : ∀ t ∈ ts, t.isHeader = true)
      (whole : ts.getLast?.all Token.isNewline = true) (line : List Token) :
      dropHeader line (ts ++ rest) = dropHeader [] rest := by
    induction ts generalizing line with
    | nil => exact absurd rfl some
    | cons t ts ih =>
      rw [List.forall_mem_cons] at quiet
      rcases ts with _ | ⟨u, ts⟩
      · have newline : t.isNewline = true := by simpa using whole
        simp [dropHeader, newline]
      · have further := ih (List.cons_ne_nil _ _) quiet.2 (by simpa using whole)
        rw [List.cons_append, dropHeader]
        split
        · exact further []
        · rw [if_pos quiet.1]
          exact further _
  by_cases empty : header = []
  · rw [empty, List.nil_append]
  · exact filled empty quiet whole []

namespace FunctionText

variable (f : FunctionText)

/-- The tokens of the header, and behind them those of the function. -/
theorem tokens_text :
    ∃ header ts, tokenize f.text = header ++ ts ∧ (∀ t ∈ header, t.isHeader = true) ∧
      header.getLast?.all Token.isNewline = true ∧ f.Tokens ts ∧ Token.concat ts = f.code := by
  have same : (tokenize f.text).map Token.segment =
      (tokenize f.header.text).map Token.segment ++ (tokenize f.code).map Token.segment := by
    rw [map_segment_tokenize, map_segment_tokenize, map_segment_tokenize, text, segments_append f.header.whole]
  obtain ⟨header, ts, cut, first, second⟩ := List.map_eq_append_iff.mp same
  have lines : f.lineTokens.map Token.segment = (tokenize f.code).map Token.segment := by
    rw [f.map_segment_lineTokens, map_segment_tokenize]
  refine ⟨header, ts, cut, fun t member => ?_, ?_, f.tokens_relisted (.of_segments (second.trans lines.symm)),
    by rw [Token.concat_of_segments second, concat_tokenize]⟩
  · obtain ⟨u, inside, same⟩ := List.mem_map.mp (first ▸ List.mem_map_of_mem (f := Token.segment) member)
    have quiet := f.header.quiet u inside
    rwa [Token.isHeader, Token.isSpacing, Token.isWhitespace, Token.isNewline, Token.kind_of_segment same] at quiet
  · have last := congrArg List.getLast? first
    rw [List.getLast?_map, List.getLast?_map] at last
    have whole := f.header.whole
    rw [endsLine] at whole
    cases ended : header.getLast? with
    | none => rfl
    | some t =>
      obtain ⟨u, found, same⟩ := Option.map_eq_some_iff.mp (last.symm.trans (by rw [ended]; rfl))
      rw [found] at whole
      simpa [Token.isNewline, ← Token.kind_of_segment same] using whole

theorem Tokens.exists_keyword {f : FunctionText} {ts : List Token} (tokens : f.Tokens ts) :
    ∃ gap k rest, ts = gap ++ k :: rest ∧ (∀ g ∈ gap, g.isWhitespace = true) ∧ k.isKeyword "function" = true := by
  obtain ⟨front, remark, e, run, blank, closing, rfl, signature, -⟩ := tokens
  generalize read : words front = ws at signature
  obtain ⟨-, -⟩ := signature
  obtain ⟨gap, k, rest, rfl, white, -, keyword, -⟩ := words_cons_inv read
  exact ⟨gap, k, _, by rw [List.append_assoc, List.cons_append], white, Token.isKeyword_of_segment keyword⟩

theorem classify_text : classify (tokenize f.text) = .function := by
  obtain ⟨header, ts, cut, quiet, -, tokens, -⟩ := f.tokens_text
  obtain ⟨gap, k, rest, rfl, white, keyword⟩ := tokens.exists_keyword
  rw [cut, ← List.append_assoc]
  refine classify_of_function ?_ keyword rest
  rw [List.forall_mem_append]
  exact ⟨quiet, fun g member => Token.isHeader_of_isWhitespace (white g member)⟩

theorem removeHeader_text : removeHeader f.text = f.code := by
  obtain ⟨header, ts, cut, quiet, whole, tokens, same⟩ := f.tokens_text
  obtain ⟨gap, k, rest, rfl, white, keyword⟩ := tokens.exists_keyword
  have code := Token.not_isHeader_of_keyword (Token.kind_of_isKeyword keyword)
  rw [removeHeader, cut, dropHeader_append quiet whole, dropHeader_blank white code, List.nil_append, same]

end FunctionText

namespace Reader

/-- A function is read from the words of its signature and the comments. -/
theorem function_text {f : FunctionText} {ts : List Token} (tokens : f.Tokens ts) (scope : String) :
    ∃ cursor, function scope (some f.name) { cursor := (Cursor.ofTokens ts).skipSpacing } =
      .ok (f.doc scope, ⟨cursor, []⟩) := by
  obtain ⟨front, remark, e, run, blank, closing, rfl, signature, said, own, ends, lines,
    ⟨space, feed, rfl, white, feeds⟩, margin, k, behind, rfl, spacing, ending⟩ := tokens
  generalize read : words front = ws at signature
  obtain ⟨outputWords, parameterWords⟩ := signature
  obtain ⟨gap, kw, rest, rfl, whiteGap, -, keyword, further⟩ := words_cons_inv read
  rw [List.forall_mem_append] at spacing
  have quiet : ∀ g ∈ margin, g.isHeader = true := fun g member => by
    simp [Token.isHeader, spacing.1 g member]
  have own' : ∀ t ∈ margin, t.isKeyword "arguments" = false := fun t member =>
    Token.not_isKeyword_of_kind (Token.kind_of_isHeader (quiet t member)).1 _
  obtain ⟨passed, known⟩ := function_of_signature outputWords parameterWords (Token.isKeyword_of_segment keyword)
    further own ends lines white feeds (.header quiet) own' ending
    (fun other same => Option.some.inj same) scope [] gap.reverse behind
  have spaced : ∀ g ∈ gap, g.isSpacing = true := fun g member => by simp [Token.isSpacing, whiteGap g member]
  have start := Cursor.skipSpacing_of_keyword spaced (Token.kind_of_isKeyword (Token.isKeyword_of_segment keyword))
    (rest ++ (remark.toList ++ e :: (run ++ (space ++ feed :: (margin ++ k :: behind)))))
  have doc : docAfter remark f.comments = (f.doc scope).doc := by
    rw [docAfter, FunctionText.doc, ← said]
    cases remark <;> rfl
  refine ⟨⟨passed, behind⟩, ?_⟩
  have shape : gap ++ kw :: rest ++ (remark.toList ++ e :: (run ++ (space ++ [feed] ++ (margin ++ k :: behind)))) =
      gap ++ kw :: (rest ++ (remark.toList ++ e :: (run ++ (space ++ feed :: (margin ++ k :: behind))))) := by simp
  rw [shape, start, known, doc]
  rfl

end Reader

/-- A function is read as it was written, whatever its header and its layout: with its name, its parameters and
its outputs, documented by the comment lines below its signature or else by the comment behind it. Nothing is
reported. -/
theorem parseUnit_functionText (f : FunctionText) (location : Location) (scope : String) :
    parseUnit location f.text f.name scope = ⟨.ok (.function (f.doc scope)), []⟩ := by
  obtain ⟨cursor, known⟩ := Reader.function_text f.tokens_completed scope
  rw [parseUnit, f.classify_text, readerOf, f.removeHeader_text, f.normalize_code]
  simp only [known]
  rfl

/-- Blank lines and lines of a comment can be a header. -/
def HeaderText.ofLines (lines : List QuietLine) : HeaderText where
  text := String.join (lines.map QuietLine.text)
  quiet := by
    intro t member
    have ended : ∀ p ∈ lines.map QuietLine.text, endsLine p = true := by simp [QuietLine.endsLine_text]
    have same := map_segment_tokenize_join ended
    obtain ⟨u, inside, same⟩ := List.mem_map.mp (same ▸ List.mem_map_of_mem (f := Token.segment) member)
    obtain ⟨ts, listed, within⟩ := List.mem_flatten.mp inside
    obtain ⟨p, piece, rfl⟩ := List.mem_map.mp listed
    obtain ⟨l, -, rfl⟩ := List.mem_map.mp piece
    have quiet := l.isHeader_text u within
    rwa [Token.isHeader, Token.isSpacing, Token.isWhitespace, Token.isNewline, Token.kind_of_segment same] at quiet
  whole := endsLine_join (by simp [QuietLine.endsLine_text])

/-- A function with all parts, where the lines below the signature document it. -/
def FunctionText.sample : FunctionText where
  header := .ofLines [
    ⟨⟨.empty, some "% About".toList, by decide +kernel, .carriage, by decide +kernel⟩, by decide +kernel⟩,
    ⟨.bare .feed, by simp [LineRest.bare]⟩]
  signature :=
    { margin := .space
      opening := .empty
      declaration :=
        { outputs := .bracket .empty (some (.comma ⟨"a", by decide +kernel, by decide +kernel⟩ .empty .space
            (.space ⟨"b", by decide +kernel, by decide +kernel⟩ .space (by simp)
              (.last ⟨"c", by decide +kernel, by decide +kernel⟩ .empty)))) .space .space
          name := "pkg.end"
          dotted := by decide +kernel
          parameters := .list .space [
            ⟨[], .name ⟨"x", by decide +kernel, by decide +kernel⟩, [], .nil, .nil⟩,
            ⟨[' '], .unused, [], .space, .nil⟩] }
      apart := fun _ => rfl
      rest := ⟨.space, some "\x7b see below = ()".toList, by decide +kernel, .feed, by decide +kernel⟩ }
  run := [⟨⟨⟨[' ', ' '], by decide +kernel⟩, some " Adds.".toList, by decide +kernel, .feed, by decide +kernel⟩,
    by decide +kernel⟩]
  commented := by simp
  blank := ⟨"\t\n", .of_words (by decide +kernel) (by decide +kernel)⟩
  closing := ⟨"end", [], ⟨.keyword, "end", 1⟩, [], by decide +kernel, by simp, rfl⟩

/-- The name of a function may hold a reserved word, and the comment behind the signature anything. -/
theorem parseUnit_functionText_sample :
    parseUnit {} ("%% About\r\n\n function[a, b c] = pkg.end (x, ~) %\x7b see below = ()\n  % Adds.\n\t\nend")
        "pkg.end" "s" =
      ⟨.ok (.function
        { name := "pkg.end"
          scope := "s"
          doc := some "Adds."
          args := [{ name := "x" }, { name := "~" }]
          returns := [{ name := "a" }, { name := "b" }, { name := "c" }] }), []⟩ := by
  have text : FunctionText.sample.text =
      "%% About\r\n\n function[a, b c] = pkg.end (x, ~) %\x7b see below = ()\n  % Adds.\n\t\nend" := by
    decide +kernel
  have doc : FunctionText.sample.doc "s" =
      { name := "pkg.end", scope := "s", doc := some "Adds.", args := [{ name := "x" }, { name := "~" }],
        returns := [{ name := "a" }, { name := "b" }, { name := "c" }] } := by
    decide +kernel
  have known := parseUnit_functionText .sample {} "s"
  rw [text, doc] at known
  exact known

end MatlabOutline
