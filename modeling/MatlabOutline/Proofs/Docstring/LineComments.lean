import MatlabOutline.Proofs.Docstring.Cleaned
import MatlabOutline.Proofs.Lexing.Shapes

/-!
Line comments as docstrings. Main statement: a line comment says what stands behind its marks, unless
it begins with the mark of a block comment, and then it says nothing (`clean_lineComment_iff`).
-/

namespace MatlabOutline

namespace Docstring

/-- What a line comment should say: its text behind the `%` marks, without the spaces and tabs in front of
it and the white space behind it. -/
def remarkText (comment : String) : String :=
  String.ofList (Text.trimEnd ((comment.toList.dropWhile (· == '%')).dropWhile isIndent))

/-- A line that stands alone has its own indentation as margin. -/
theorem dedent_margin_single (line : List Char) :
    dedent (margin [line]) line = Text.trimEnd (line.dropWhile isIndent) := by
  rw [← dedent_indentOf]
  by_cases blank : Text.allBlank line = true
  · rw [dedent_of_blank blank, dedent_of_blank blank]
  · rw [Bool.not_eq_true] at blank
    obtain ⟨only, member, -, attains⟩ := exists_indentOf_eq_margin ⟨line, List.mem_singleton_self line, blank⟩
    rw [← attains, List.mem_singleton.mp member]

theorem joinWith_dropOuterBlank_single (line : List Char) :
    Text.joinWith '\n' (dropOuterBlank [line]) = line := by
  by_cases empty : line = []
  · subst empty
    rfl
  · rw [dropOuterBlank_of_filled (by simpa using empty) (by simpa using empty)]
    simp [Text.joinWith]

/-- A comment without the mark of a block comment. -/
theorem clean_single {comment : String} (percent : comment.toList.head? = some '%')
    (plain : ¬ ['%', '\x7b'] <+: comment.toList) : clean [comment] = remarkText comment := by
  obtain ⟨r, text⟩ := List.head?_eq_some_iff.mp percent
  have start : Text.trimStart comment.toList = comment.toList := by
    rw [text]
    exact List.dropWhile_cons_of_neg (by decide)
  have line : [comment].flatMap (fun c => commentLines c.toList) = [comment.toList.dropWhile (· == '%')] := by
    rw [List.flatMap_singleton, commentLines, if_neg (by simpa using plain), start]
  rw [clean, linesOf, line, List.map_singleton, dedent_margin_single, joinWith_dropOuterBlank_single,
    remarkText]

/-- With the mark of a block comment the first line is taken away, and there is no other. -/
theorem clean_single_braced {comment : String} (within : '\n' ∉ comment.toList)
    (braced : ['%', '\x7b'] <+: comment.toList) : clean [comment] = "" := by
  have filled : comment.toList ≠ [] := by
    rintro none
    simp [none] at braced
  have none : Text.lines comment.toList = [comment.toList] := by
    rw [Text.lines, Text.pieces_of_not_mem filled within, List.map_singleton,
      Text.chomp_of_not_mem within]
  have lines : [comment].flatMap (fun c => commentLines c.toList) = [] := by
    rw [List.flatMap_singleton, commentLines, if_pos (by simpa using braced), none]
    rfl
  rw [clean, linesOf, lines]
  rfl

/-- The brace of the mark is text. -/
theorem remarkText_braced {comment : String} (braced : ['%', '\x7b'] <+: comment.toList) :
    remarkText comment ≠ "" := by
  obtain ⟨r, text⟩ := braced
  have marks : (comment.toList.dropWhile (· == '%')).dropWhile isIndent = '\x7b' :: r := by
    rw [← text]
    rfl
  rw [remarkText, marks, Text.trimEnd, Text.trimEndBy_cons (by decide)]
  simp

end Docstring

namespace Token

/-- The comment `t` behind the tokens `before` is a block comment: only white space stands before it on
its line, and its first line is nothing but the opening mark. -/
def IsBlockComment (before : List Token) (t : Token) : Prop :=
  StartsLine before ∧ (Text.lines t.text.toList).head?.any Text.opensBlock = true

theorem startsLine_of_lineStart {before : List Token}
    (start : (Lexer.openLine (before.map lexeme)).all (·.1 == .whitespace) = true) : StartsLine before := by
  have ended := List.head?_dropWhile_not (fun u : Token => u.kind != .newline) before.reverse
  refine ⟨(before.reverse.dropWhile (·.kind != .newline)).reverse,
    (before.reverse.takeWhile (·.kind != .newline)).reverse, ?_, ?_, ?_⟩
  · rw [← List.reverse_append, List.takeWhile_append_dropWhile, List.reverse_reverse]
  · rw [List.getLast?_reverse]
    split at ended
    · next u last =>
      rw [last]
      simpa [isNewline] using ended
    · next none => rw [none]; rfl
  · intro u member
    rw [List.mem_reverse] at member
    have blank := List.all_eq_true.mp start u.lexeme (by
      rw [Lexer.openLine, List.mem_reverse, ← List.map_reverse, List.takeWhile_map]
      exact List.mem_map_of_mem member)
    simpa [isWhitespace, lexeme] using blank

/-- The block comments are those that the lexer reads to their closing marks. -/
theorem isBlockComment_iff {before : List Token} {t : Token} {st : LexState} {r : List Char}
    (past : Lexer.Recalls (before.map lexeme) st)
    (text : t.text.toList = '%' :: (Lexer.step st '%' r).split.taken) :
    IsBlockComment before t ↔ (st.lineStart && Scan.opensBlockComment r) = true := by
  have comment : (Lexer.step st '%' r).kind = .comment := by
    rw [Lexer.step_remark, Lexer.comment]
    split <;> rfl
  rw [IsBlockComment, text]
  constructor
  · rintro ⟨start, opener⟩
    have begun := past.lineStart.trans (lineStart_of_startsLine start)
    obtain ⟨-, -, opens⟩ := Lexer.opens_of_comment comment (.inr ⟨begun, opener⟩)
    rw [begun, opens]
    rfl
  · intro block
    obtain ⟨begun, opens⟩ := Bool.and_eq_true_iff.mp block
    refine ⟨startsLine_of_lineStart (past.lineStart ▸ begun), ?_⟩
    rw [Lexer.step_remark, Lexer.comment, if_pos block, ← Scan.uptoEnd_opener,
      Scan.head_lines_uptoEnd Nat.one_ne_zero (by simp)]
    exact beq_iff_eq.mpr (Scan.trim_opener opens)

end Token

/-- A line comment stays on its line. -/
theorem feed_not_mem_lineComment {source : String} {before after : List Token} {t : Token}
    (cut : tokenize source = before ++ t :: after) (percent : t.text.toList.head? = some '%')
    (single : ¬ t.IsBlockComment before) : '\n' ∉ t.text.toList := by
  obtain ⟨st, c, r, past, -, read, -⟩ := Lexer.exists_step Lexer.recalls_initial (lexemes_of_cut cut)
  have text : t.text.toList = c :: (Lexer.step st c r).split.taken := congrArg Prod.snd read
  obtain rfl : c = '%' := by simpa [text] using percent
  rw [Token.isBlockComment_iff past text] at single
  rw [text, Lexer.step_remark, Lexer.comment, if_neg single]
  simp [Scan.feed_not_mem_lineBody]

namespace Docstring

/-- A line comment is cleaned to what it should say exactly if it does not begin with the mark of a block
comment. One that does is cleaned to nothing. -/
theorem clean_lineComment_iff {source : String} {before after : List Token} {t : Token}
    (cut : tokenize source = before ++ t :: after) (percent : t.text.toList.head? = some '%')
    (single : ¬ t.IsBlockComment before) :
    (clean [t.text] = remarkText t.text ↔ ¬ ['%', '\x7b'] <+: t.text.toList) ∧
      (['%', '\x7b'] <+: t.text.toList → clean [t.text] = "") := by
  have within := feed_not_mem_lineComment cut percent single
  refine ⟨⟨?_, clean_single percent⟩, clean_single_braced within⟩
  intro same braced
  rw [clean_single_braced within braced] at same
  exact remarkText_braced braced same.symm

/-- A comment behind code, with two marks, spaces and a tab. -/
theorem clean_lineComment_behind :
    tokenize "x %% \t note \n" =
        [⟨.name, "x", 1⟩, ⟨.whitespace, " ", 1⟩] ++
          ⟨.comment, "%% \t note ", 1⟩ :: [⟨.newline, "\n", 1⟩] ∧
      ¬ Token.IsBlockComment [⟨.name, "x", 1⟩, ⟨.whitespace, " ", 1⟩] ⟨.comment, "%% \t note ", 1⟩ ∧
      clean ["%% \t note "] = "note" := by
  have cut : tokenize "x %% \t note \n" =
      [⟨.name, "x", 1⟩, ⟨.whitespace, " ", 1⟩] ++
        ⟨.comment, "%% \t note ", 1⟩ :: [⟨.newline, "\n", 1⟩] := by
    decide +kernel
  have single : ¬ Token.IsBlockComment [⟨.name, "x", 1⟩, ⟨.whitespace, " ", 1⟩]
      ⟨.comment, "%% \t note ", 1⟩ :=
    fun block => absurd block.2 (by decide)
  refine ⟨cut, single, ((clean_lineComment_iff cut (by decide) single).1.mpr (by decide)).trans ?_⟩
  decide

/-- A line comment that begins with a brace is lost. -/
theorem clean_lineComment_braced :
    tokenize "%\x7b note\n" = [] ++ ⟨.comment, "%\x7b note", 1⟩ :: [⟨.newline, "\n", 1⟩] ∧
      ¬ Token.IsBlockComment [] ⟨.comment, "%\x7b note", 1⟩ ∧
      remarkText "%\x7b note" = "\x7b note" ∧ clean ["%\x7b note"] = "" := by
  refine ⟨by decide +kernel, fun block => absurd block.2 (by decide), by decide, by decide⟩

end Docstring

end MatlabOutline
