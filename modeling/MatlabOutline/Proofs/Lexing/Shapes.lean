import MatlabOutline.Proofs.Lexing.CommentBlocks
import MatlabOutline.Proofs.Lexing.History

/-!
The text of every token has the form that its kind promises (`shaped_of_tokenize`): the words, marks,
operators, strings and numbers of the language, white space in one piece, and block comments that end
where they are closed.
-/

namespace MatlabOutline

def operatorTexts : List String :=
  ["==", "~=", "<=", ">=", "&&", "||", ".*", "./", ".\\", ".^", ".'", "+", "-", "*", "/", "\\", "^",
    "<", ">", "&", "|", "~", "!", "=", ":", "@", "?", "'"]

def punctuationTexts : List String :=
  ["(", ")", "[", "]", "\x7b", "\x7d", ",", ";", "."]

/-- A digit, or a point and a digit. -/
def startsNumber : List Char → Bool
  | [] => false
  | c :: r => c.isDigit || c == '.' && r.head?.any Char.isDigit

/-- What the text of a token looks like. -/
def TokenKind.Shape (cs : List Char) : TokenKind → Prop
  | newline => cs = ['\n'] ∨ cs = ['\r', '\n']
  | whitespace => cs ≠ [] ∧ ∀ c ∈ cs, isBlank c = true ∧ c ≠ '\n'
  | name => isIdentifierChars cs = true
  | nameFunction => isDottedChars cs = true
  | keyword => isReserved (String.ofList cs) = true ∨ isBlockWord (String.ofList cs) = true
  | operator => cs ∈ operatorTexts.map String.toList
  | punctuation => cs ∈ punctuationTexts.map String.toList
  | string => (cs.head? = some '\'' ∨ cs.head? = some '"') ∧ '\n' ∉ cs
  | number => startsNumber cs = true
  | text => cs.length = 1
  | comment => ['%'] <+: cs ∨ ['.', '.', '.'] <+: cs

namespace Lexer

open Scan

theorem shape_dot (st : LexState) (r : List Char) :
    (dot st r).kind.Shape ('.' :: (dot st r).split.taken) := by
  fun_cases dot st r
  case case1 r =>
    have body : (lineBody ('.' :: '.' :: r)).taken = '.' :: '.' :: (lineBody r).taken := by
      simp [lineBody_cons, atLineEnd, Split.push]
    exact .inr (by rw [body]; simp)
  case case2 => simp [TokenKind.Shape, operatorTexts]
  case case3 c r _ _ digit =>
    have taken := head_numberRest (r := c :: r) (by simpa using digit)
    simp [TokenKind.Shape, startsNumber, taken]
  case case4 c r _ _ _ mark =>
    have symbols : c = '*' ∨ c = '/' ∨ c = '\\' ∨ c = '^' := by simpa [or_assoc] using mark
    rcases symbols with rfl | rfl | rfl | rfl <;> simp [TokenKind.Shape, operatorTexts]
  all_goals simp [TokenKind.Shape, punctuationTexts]

theorem shape_word {c : Char} (letter : isIdentStart c = true) (st : LexState) (r : List Char) :
    (word st c r).kind.Shape (c :: (word st c r).split.taken) := by
  have admitted := admits_word st letter r
  have kinds := kind_word st c r
  simp only [List.mem_cons, List.not_mem_nil, or_false] at kinds
  rcases kinds with kind | kind | kind
  · rw [kind] at admitted ⊢
    exact admitted
  · rw [kind] at admitted ⊢
    exact admitted
  · rw [kind]
    obtain ⟨field, part⟩ := plain_of_keyword kind
    rw [word_plain field part] at kind ⊢
    simp only [wordKind] at kind
    split at kind
    · next reserved => exact .inl reserved
    · split at kind
      · next block =>
        rw [Bool.and_eq_true, Bool.and_eq_true] at block
        exact .inr block.1.1
      · cases kind

theorem optional_cases (second : Option Char) (r : List Char) :
    (optional second r).taken = [] ∨ ∃ d, second = some d ∧ (optional second r).taken = [d] := by
  fun_cases optional second r
  case case2 d r same => exact .inr ⟨d, same, rfl⟩
  all_goals exact .inl rfl

theorem shape_operator {c : Char} (start : isOperatorStart c = true) (st : LexState) (r : List Char) :
    (operator st c r).kind.Shape (c :: (operator st c r).split.taken) := by
  have spellings : "=<>~&|+-*/\\^:@?!".toList.all (fun c =>
      (operatorTexts.map String.toList).contains [c] &&
        (operatorSecond c).all fun d => (operatorTexts.map String.toList).contains [c, d]) = true := by
    decide +kernel
  rw [List.all_eq_true] at spellings
  have known := spellings c (List.contains_iff_mem.mp start)
  rw [Bool.and_eq_true, List.contains_iff_mem, Option.all_eq_true] at known
  obtain ⟨single, double⟩ := known
  rcases optional_cases (operatorSecond c) r with none | ⟨d, second, taken⟩
  · simpa only [operator, none, TokenKind.Shape] using single
  · simpa only [operator, taken, TokenKind.Shape] using List.contains_iff_mem.mp (double d second)

/-- A step reads a lexeme of the form that its kind promises. -/
theorem shape_step (st : LexState) (c : Char) (r : List Char) :
    (step st c r).kind.Shape (c :: (step st c r).split.taken) := by
  fun_cases step st c r
  case case1 feed => exact .inl (by simpa using feed)
  case case2 carriage => exact .inr (by simp_all)
  case case3 feed carriage blank =>
    have space : step st c r = ⟨.whitespace, Scan.spaces r, st.blank⟩ := by simp [step, feed, carriage, blank]
    have shaped := isShaped_step st c r
    simpa [space, IsShaped, TokenKind.Shape, IsGap] using shaped
  case case6 point => exact beq_iff_eq.mp point ▸ shape_dot st r
  case case9 digit => simp [TokenKind.Shape, startsNumber, digit]
  case case10 letter => exact shape_word letter st r
  case case13 start => exact shape_operator start st r
  case case8 quote =>
    have mark : c = '\'' ∨ c = '"' := by simpa using quote
    have other : c ≠ '\n' := by rcases mark with rfl | rfl <;> decide
    simp [TokenKind.Shape, mark, other.symm, feed_not_mem_stringBody other]
  case case11 | case12 =>
    simp_all [TokenKind.Shape, punctuationTexts]
    tauto
  all_goals simp_all [TokenKind.Shape, operatorTexts]

/-- White space goes on up to a line end or solid text. -/
theorem stop_of_rest_spaces {r s : List Char} {d : Char} (rest : (spaces r).rest = d :: s) :
    atLineEnd (d :: s) = true ∨ isBlank d = false := by
  fun_induction spaces r with
  | case1 => cases rest
  | case2 r => exact .inl (atLineEnd_cons_iff.mpr (.inl (List.cons.inj rest).1.symm))
  | case3 r =>
    obtain ⟨rfl, rfl⟩ := List.cons.inj rest
    exact .inl rfl
  | case4 c r _ _ _ ih => exact ih rest
  | case5 c r _ _ solid =>
    obtain ⟨rfl, rfl⟩ := List.cons.inj rest
    exact .inr (by simpa using solid)

/-- No white space follows white space. -/
theorem isChain_spaces (st : LexState) (cs : List Char) :
    (lexemes st cs).IsChain fun x y => x.1 = .whitespace → y.1 ≠ .whitespace := by
  fun_induction lexemes st cs with
  | case1 => exact .nil
  | case2 st c r s ih =>
    apply ih.cons
    intro y first space
    rcases rest : s.split.rest with _ | ⟨d, t⟩
    · simp [rest, lexemes] at first
    rw [rest, lexemes, List.head?_cons, Option.mem_some_iff] at first
    have read : s = _ := step_of_space space
    rw [read] at rest
    rw [← first]
    intro blank
    rcases stop_of_rest_spaces rest with ended | solid
    · rcases atLineEnd_cons_iff.mp ended with rfl | ⟨rfl, u, rfl⟩ <;> cases blank
    · simp [isBlank_of_space blank] at solid

theorem head_lines_single {line : List Char} (filled : line ≠ []) (within : '\n' ∉ line) :
    (Text.lines line).head? = some line := by
  rw [Text.lines, Text.pieces_of_not_mem filled within, List.map_singleton, Text.chomp_of_not_mem within]
  rfl

/-- What begins with an opener begins with a percent sign. -/
theorem percent_of_opener {st : LexState} {c : Char} {r : List Char}
    (comment : (step st c r).kind = .comment) (within : '\n' ∉ c :: (step st c r).split.taken)
    (opener : (Text.lines (c :: (step st c r).split.taken)).head?.any Text.opensBlock = true) :
    c = '%' := by
  have shape := shape_step st c r
  rw [comment] at shape
  rcases shape with percent | dots
  · exact (List.cons_prefix_cons.mp percent).1.symm
  · obtain rfl : '.' = c := (List.cons_prefix_cons.mp dots).1
    rw [head_lines_single (by simp) within, Option.any_some, Text.opensBlock, beq_iff_eq,
      Text.trim_cons (by decide)] at opener
    cases (List.cons.inj opener).1

/-- A comment over lines, or behind an opener alone on its line, is a block comment. -/
theorem opens_of_comment {st : LexState} {c : Char} {r : List Char}
    (comment : (step st c r).kind = .comment)
    (block : '\n' ∈ c :: (step st c r).split.taken ∨
      st.lineStart = true ∧
        (Text.lines (c :: (step st c r).split.taken)).head?.any Text.opensBlock = true) :
    c = '%' ∧ (step st c r).split = blockRest r ∧ opensBlockComment r = true := by
  obtain rfl : c = '%' := by
    by_contra other
    have within : '\n' ∉ c :: (step st c r).split.taken := fun feed =>
      (step_with_feed feed).elim (by simp [comment]) fun percent => other percent.2
    exact other (percent_of_opener comment within (block.resolve_left within).2)
  refine ⟨rfl, ?_⟩
  rw [step_remark, Lexer.comment] at block ⊢
  by_cases opens : (st.lineStart && opensBlockComment r) = true
  · rw [if_pos opens]
    rw [Bool.and_eq_true] at opens
    exact ⟨rfl, opens.2⟩
  · exfalso
    rw [if_neg opens] at block
    have within : '\n' ∉ '%' :: (lineBody r).taken := by simp [feed_not_mem_lineBody]
    obtain ⟨start, first⟩ := block.resolve_left within
    rw [head_lines_single (by simp) within] at first
    have alone := (Text.trim_opener_iff _).mp (by simpa [Text.opensBlock] using first)
    apply opens
    rw [start, opensBlockComment_eq, alone.1, alone.2]
    rfl

end Lexer

namespace Token

/-- Only white space stands behind the last line end of the tokens. -/
def StartsLine (before : List Token) : Prop :=
  ∃ front blanks, before = front ++ blanks ∧ front.getLast?.all isNewline = true ∧
    ∀ u ∈ blanks, u.isWhitespace = true

theorem lineStart_of_startsLine {before : List Token} (start : StartsLine before) :
    (Lexer.openLine (before.map lexeme)).all (·.1 == .whitespace) = true := by
  obtain ⟨front, blanks, rfl, ended, spaces⟩ := start
  induction blanks using List.reverseRecOn with
  | nil =>
    rw [List.append_nil]
    rcases front.eq_nil_or_concat' with rfl | ⟨front, u, rfl⟩
    · rfl
    · have newline : u.kind = .newline := by simpa [isNewline] using ended
      rw [List.map_append, List.map_singleton, Lexer.openLine_concat,
        if_pos (show u.lexeme.1 = .newline from newline)]
      rfl
  | append_singleton blanks u ih =>
    rw [List.forall_mem_append] at spaces
    have space : u.kind = .whitespace := by simpa [isWhitespace] using spaces.2
    rw [← List.append_assoc, List.map_append, List.map_singleton, Lexer.openLine_concat,
      if_neg (by simp [lexeme, space]), List.all_append, ih spaces.1]
    simp [lexeme, space]

/-- The text of `t`, between the tokens `before` and `after` of a source, has the form of its kind. -/
structure Shaped (before : List Token) (t : Token) (after : List Token) : Prop where
  text : t.kind.Shape t.text.toList
  /-- White space comes in one piece. -/
  apart : t.kind = .whitespace → before.getLast?.all (!·.isWhitespace) = true
  /-- A comment over lines begins with an opener and ends where its blocks are closed. -/
  block : t.kind = .comment → '\n' ∈ t.text.toList →
    (Text.lines t.text.toList).head?.any Text.opensBlock = true ∧
      Text.IsBlock 0 (concat (t :: after)).toList t.text.toList
  /-- A comment that begins with an opener alone on its line is such a block. -/
  opener : t.kind = .comment → StartsLine before →
    (Text.lines t.text.toList).head?.any Text.opensBlock = true →
      Text.IsBlock 0 (concat (t :: after)).toList t.text.toList

theorem spelled_lexemes (ts : List Token) : spelled (ts.map lexeme) = (concat ts).toList := by
  induction ts with
  | nil => rfl
  | cons t ts ih => simp [lexeme, ih]

end Token

theorem shaped_of_tokenize {source : String} {before after : List Token} {t : Token}
    (cut : tokenize source = before ++ t :: after) : t.Shaped before after := by
  have lexemes := lexemes_of_cut cut
  obtain ⟨st, c, r, past, whole, read, -⟩ := Lexer.exists_step Lexer.recalls_initial lexemes
  rw [List.nil_append] at past
  have kind : t.kind = (Lexer.step st c r).kind := congrArg Prod.fst read
  have text : t.text.toList = c :: (Lexer.step st c r).split.taken := congrArg Prod.snd read
  rw [← List.map_cons, Token.spelled_lexemes] at whole
  constructor
  case text =>
    rw [kind, text]
    exact Lexer.shape_step st c r
  case apart =>
    intro space
    have chain := Lexer.isChain_spaces .initial source.toList
    rw [lexemes, List.isChain_append] at chain
    rw [Option.all_eq_true]
    intro u last
    have away : u.kind = .whitespace → t.kind ≠ .whitespace :=
      chain.2.2 u.lexeme (by rw [List.getLast?_map, last]; rfl) t.lexeme rfl
    simpa [Token.isWhitespace] using fun blank => away blank space
  case block =>
    intro comment feed
    rw [kind] at comment
    rw [text] at feed ⊢
    obtain ⟨rfl, split, opens⟩ := Lexer.opens_of_comment comment (.inl feed)
    rw [split, ← whole]
    refine ⟨?_, Scan.isBlock_blockRest opens⟩
    rw [← Scan.uptoEnd_opener, Scan.head_lines_uptoEnd Nat.one_ne_zero (by simp)]
    exact beq_iff_eq.mpr (Scan.trim_opener opens)
  case opener =>
    intro comment start first
    rw [kind] at comment
    rw [text] at first ⊢
    have begun := past.lineStart.trans (Token.lineStart_of_startsLine start)
    obtain ⟨rfl, split, opens⟩ := Lexer.opens_of_comment comment (.inr ⟨begun, first⟩)
    rw [split, ← whole]
    exact Scan.isBlock_blockRest opens

/-- A block comment with another one in it, behind white space. -/
theorem shaped_of_tokenize_nested :
    tokenize "x\n %\x7b\n%\x7b\n%\x7d\r\n%\x7d\ny" =
      [⟨.name, "x", 1⟩, ⟨.newline, "\n", 1⟩, ⟨.whitespace, " ", 2⟩] ++
        ⟨.comment, "%\x7b\n%\x7b\n%\x7d\r\n%\x7d", 2⟩ :: [⟨.newline, "\n", 5⟩, ⟨.name, "y", 6⟩] ∧
      Token.Shaped [⟨.name, "x", 1⟩, ⟨.newline, "\n", 1⟩, ⟨.whitespace, " ", 2⟩]
        ⟨.comment, "%\x7b\n%\x7b\n%\x7d\r\n%\x7d", 2⟩ [⟨.newline, "\n", 5⟩, ⟨.name, "y", 6⟩] := by
  have cut : tokenize "x\n %\x7b\n%\x7b\n%\x7d\r\n%\x7d\ny" =
      [⟨.name, "x", 1⟩, ⟨.newline, "\n", 1⟩, ⟨.whitespace, " ", 2⟩] ++
        ⟨.comment, "%\x7b\n%\x7b\n%\x7d\r\n%\x7d", 2⟩ :: [⟨.newline, "\n", 5⟩, ⟨.name, "y", 6⟩] := by
    decide +kernel
  exact ⟨cut, shaped_of_tokenize cut⟩

end MatlabOutline
