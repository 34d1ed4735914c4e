import MatlabOutline.Proofs.Lexing.Context

/-!
The state of the lexer recalls the lexemes before it (`Lexer.Recalls`): whether the last one ends an
operand, whether it is a field access, and whether only white space stands on the line. So the kinds of
quotes, block words, field names and reserved words are fixed by the tokens before them
(`labelledBehind_of_tokenize`).
-/

namespace MatlabOutline

namespace Lexer

open Scan

/-- A `.` that accesses a field. -/
def isPoint (x : TokenKind × List Char) : Bool :=
  x.1 == .punctuation && x.2 == ['.']

/-- A lexeme that ends the outputs of a signature. -/
def endsOutputs (x : TokenKind × List Char) : Bool :=
  x.1 == .newline || x.1 == .operator && x.2.head? == some '='

/-- The lexemes of the line that is not ended yet. -/
def openLine (xs : List (TokenKind × List Char)) : List (TokenKind × List Char) :=
  (xs.reverse.takeWhile (·.1 != .newline)).reverse

/-- The outputs of a signature are being read behind `xs`. -/
def InOutputs (xs : List (TokenKind × List Char)) : Prop :=
  ∃ front since, xs = front ++ (.keyword, "function".toList) :: since ∧
    ∀ x ∈ since, endsOutputs x = false

/-- What the state behind the lexemes `xs` says of them. -/
structure Recalls (xs : List (TokenKind × List Char)) (st : LexState) : Prop where
  operand : st.afterOperand = xs.getLast?.any isOperand
  point : st.afterDot = xs.getLast?.any isPoint
  lineStart : st.lineStart = (openLine xs).all (·.1 == .whitespace)
  outputs : st.signature = .outputs → InOutputs xs

theorem recalls_initial : Recalls [] .initial :=
  ⟨rfl, rfl, rfl, by simp [LexState.initial]⟩

theorem openLine_concat (xs : List (TokenKind × List Char)) (x : TokenKind × List Char) :
    openLine (xs ++ [x]) = if x.1 = .newline then [] else openLine xs ++ [x] := by
  by_cases newline : x.1 = .newline <;> simp [openLine, newline]

/-- The state `next` behind the lexeme `x`, which was read in `st`. -/
structure Tells (st : LexState) (x : TokenKind × List Char) (next : LexState) : Prop where
  operand : next.afterOperand = isOperand x
  point : next.afterDot = isPoint x
  lineStart : next.lineStart = (x.1 == .newline || x.1 == .whitespace && st.lineStart)
  outputs : next.signature = .outputs →
    x = (.keyword, "function".toList) ∨ st.signature = .outputs ∧ endsOutputs x = false

theorem tells_dot (st : LexState) (r : List Char) :
    Tells st ((dot st r).kind, '.' :: (dot st r).split.taken) (dot st r).next := by
  fun_cases dot st r
  case case4 =>
    constructor <;> simp_all [isOperand, isPoint, endsOutputs, LexState.plain]
  all_goals constructor <;> simp [isOperand, isPoint, endsOutputs, LexState.plain, LexState.operand]

theorem tells_word (st : LexState) (c : Char) (r : List Char) :
    Tells st ((word st c r).kind, c :: (word st c r).split.taken) (word st c r).next := by
  have kinds := kind_word st c r
  simp only [List.mem_cons, List.not_mem_nil, or_false] at kinds
  constructor
  · have next : (word st c r).next.afterOperand = true := by fun_cases word st c r <;> rfl
    rcases kinds with kind | kind | kind <;> rw [next, kind] <;> rfl
  · have next : (word st c r).next.afterDot = false := by fun_cases word st c r <;> rfl
    rcases kinds with kind | kind | kind <;> rw [next, kind] <;> rfl
  · rw [lineStart_word]
    rcases kinds with kind | kind | kind <;> rw [kind] <;> rfl
  · intro outputs
    have outside : ∀ kind ∈ [TokenKind.name, .nameFunction, .keyword], ∀ cs : List Char,
        endsOutputs (kind, cs) = false := by
      simp [endsOutputs]
    by_cases field : st.afterDot = true
    · rw [word_field field] at outputs
      exact .inr ⟨outputs, outside _ (kind_word st c r) _⟩
    rw [Bool.not_eq_true] at field
    cases part : st.signature with
    | name => simp [word_declared field part] at outputs
    | outputs => exact .inr ⟨rfl, outside _ (kind_word st c r) _⟩
    | none =>
      rw [word_plain field part] at outputs ⊢
      simp only at outputs ⊢
      have declares : String.ofList (c :: (run isIdentRest r).taken) = "function" := by
        by_contra other
        rw [signatureAfter, if_neg (mt beq_iff_eq.mp other)] at outputs
        cases outputs
      have text : c :: (run isIdentRest r).taken = "function".toList := by
        rw [← declares, String.toList_ofList]
      rw [declares, text, wordKind, if_pos (by decide)]
      exact .inl rfl

theorem tells_operator {c : Char} (start : isOperatorStart c = true) (st : LexState) (r : List Char) :
    Tells st ((operator st c r).kind, c :: (operator st c r).split.taken) (operator st c r).next := by
  have other {d : Char} (symbol : isOperatorStart d = false) : c ≠ d := by
    rintro rfl
    simp [start] at symbol
  have quote := other (d := '\'') (by decide)
  have point := other (d := '.') (by decide)
  constructor
  case outputs =>
    by_cases equals : c = '='
    · by_cases part : st.signature = .outputs <;> simp [operator, equals, part]
    · simp [operator, equals, endsOutputs]
  all_goals simp [operator, isOperand, isPoint, LexState.plain, quote, point]

/-- What a step says of the lexeme that it reads. -/
theorem tells_step (st : LexState) (c : Char) (r : List Char) :
    Tells st ((step st c r).kind, c :: (step st c r).split.taken) (step st c r).next := by
  fun_cases step st c r
  case case6 _ _ _ _ point => exact beq_iff_eq.mp point ▸ tells_dot st r
  case case10 => exact tells_word st c r
  case case13 start => exact tells_operator start st r
  case case11 closing =>
    have closes : c = ')' ∨ c = ']' ∨ c = '\x7d' := by simpa [or_assoc] using closing
    rcases closes with rfl | rfl | rfl <;> constructor <;> simp [isOperand, isPoint, endsOutputs, LexState.operand]
  all_goals
    constructor <;>
      simp_all [isOperand, isPoint, endsOutputs, LexState.plain, LexState.operand, LexState.blank,
        LexState.initial]

theorem Recalls.step {xs : List (TokenKind × List Char)} {st next : LexState}
    {x : TokenKind × List Char} (past : Recalls xs st) (tells : Tells st x next) :
    Recalls (xs ++ [x]) next where
  operand := by simp [tells.operand]
  point := by simp [tells.point]
  lineStart := by
    rw [tells.lineStart, openLine_concat, past.lineStart]
    by_cases newline : x.1 = .newline
    · simp [newline]
    · simp [newline, Bool.and_comm]
  outputs part := by
    rcases tells.outputs part with rfl | ⟨before, further⟩
    · exact ⟨xs, [], rfl, by simp⟩
    · obtain ⟨front, since, rfl, none⟩ := past.outputs before
      exact ⟨front, since ++ [x], by simp, List.forall_mem_append.mpr ⟨none, by simpa using further⟩⟩

/-- Every lexeme is read by a step from a state that recalls the lexemes before it. -/
theorem exists_step {seen before after : List (TokenKind × List Char)} {x : TokenKind × List Char}
    {st : LexState} {cs : List Char} (past : Recalls seen st)
    (cut : lexemes st cs = before ++ x :: after) :
    ∃ st' c r, Recalls (seen ++ before) st' ∧ c :: r = spelled (x :: after) ∧
      x = ((step st' c r).kind, c :: (step st' c r).split.taken) ∧
      after = lexemes (step st' c r).next (step st' c r).split.rest := by
  induction before generalizing seen st cs with
  | nil =>
    rcases cs with _ | ⟨c, r⟩
    · simp [lexemes] at cut
    · have whole := lexemes_flatten st (c :: r)
      rw [← spelled, cut] at whole
      rw [lexemes, List.nil_append, List.cons.injEq] at cut
      exact ⟨st, c, r, by simpa using past, whole.symm, cut.1.symm, cut.2.symm⟩
  | cons y before ih =>
    rcases cs with _ | ⟨c, r⟩
    · simp [lexemes] at cut
    · rw [lexemes, List.cons_append, List.cons.injEq] at cut
      have further := ih (past.step (tells_step st c r)) cut.2
      simpa [cut.1] using further

theorem mem_openLine {front since : List (TokenKind × List Char)} {x : TokenKind × List Char}
    (within : ∀ y ∈ x :: since, y.1 ≠ .newline) : x ∈ openLine (front ++ x :: since) := by
  rw [List.forall_mem_cons] at within
  have later : ∀ y ∈ since.reverse, (y.1 != .newline) = true := by
    simpa using fun kind text member => within.2 (kind, text) member
  rw [openLine, List.mem_reverse, List.reverse_append, List.reverse_cons, List.append_assoc,
    List.takeWhile_append_of_pos later]
  simp [within.1]

section Labels

variable {st : LexState} {c : Char} {r : List Char}

theorem kind_of_quote (st : LexState) (r : List Char) :
    (step st '\'' r).kind = if st.afterOperand then .operator else .string := by
  cases after : st.afterOperand with
  | true => rw [step_transpose after]; rfl
  | false => rw [step_string (.inl rfl) (by simp [after])]; rfl

/-- Behind a field access every word is a name. -/
theorem kind_of_field (letter : isIdentStart c = true) (field : st.afterDot = true) :
    (step st c r).kind = .name := by
  rw [step_of_letter letter, word_field field]

theorem not_isReserved_of_isBlockWord {s : String} (block : isBlockWord s = true) :
    isReserved s = false := by
  have apart : ∀ s ∈ blockWords, isReserved s = false := by decide
  exact apart s (List.contains_iff_mem.mp block)

/-- A keyword stands neither behind a field access nor in a signature. -/
theorem plain_of_keyword (keyword : (word st c r).kind = .keyword) :
    st.afterDot = false ∧ st.signature = .none := by
  by_cases field : st.afterDot = true
  · simp [word_field field] at keyword
  rw [Bool.not_eq_true] at field
  cases part : st.signature with
  | name => simp [word_declared field part] at keyword
  | outputs => simp [word_output field part] at keyword
  | none => exact ⟨field, rfl⟩

/-- A block word is a keyword at the start of a line only. -/
theorem lineStart_of_keyword (keyword : (step st c r).kind = .keyword)
    (block : isBlockWord (String.ofList (c :: (step st c r).split.taken)) = true) :
    st.lineStart = true := by
  have letter := letter_of_word (show (step st c r).kind ∈ _ by simp [keyword])
  rw [step_of_letter letter] at keyword block
  obtain ⟨field, part⟩ := plain_of_keyword keyword
  rw [word_plain field part] at keyword block
  simp only [wordKind, not_isReserved_of_isBlockWord block, Bool.false_eq_true, if_false] at keyword
  by_contra within
  simp [within] at keyword

/-- A reserved word is a name behind a field access or among the outputs of a signature only. -/
theorem field_or_outputs_of_reserved (name : (step st c r).kind = .name)
    (reserved : isReserved (String.ofList (c :: (step st c r).split.taken)) = true) :
    st.afterDot = true ∨ st.signature = .outputs := by
  have letter := letter_of_word (show (step st c r).kind ∈ _ by simp [name])
  rw [step_of_letter letter] at name reserved
  by_contra none
  rw [not_or, Bool.not_eq_true] at none
  obtain ⟨field, outside⟩ := none
  cases part : st.signature with
  | name => simp [word_declared field part] at name
  | outputs => exact outside part
  | none =>
    rw [word_plain field part] at name reserved
    simp only [wordKind] at name reserved
    rw [if_pos reserved] at name
    cases name

end Labels

end Lexer

namespace Token

theorem is_iff {t : Token} {kind : TokenKind} {text : String} :
    t.is kind text = true ↔ t.lexeme = (kind, text.toList) := by
  simp [is, lexeme, String.toList_inj]

theorem isPoint_lexeme (t : Token) : Lexer.isPoint t.lexeme = t.isPunct "." := by
  rw [Bool.eq_iff_iff]
  simp [Lexer.isPoint, lexeme, isPunct, is, ← String.toList_inj]

/-- The kind of `t` is what the tokens before it say. -/
structure LabelledBehind (before : List Token) (t : Token) : Prop where
  /-- A single quote transposes an operand that ends right before it, and begins a string elsewhere. -/
  quote : t.text.toList.head? = some '\'' →
    t.kind = if before.getLast?.any isOperand then .operator else .string
  /-- Only white space stands before a block word on its line. -/
  block : t.kind = .keyword → isBlockWord t.text = true →
    ∀ u ∈ before, u.endLine = t.line → u.isWhitespace = true
  /-- Behind a field access every word is a name. -/
  field : isIdentifier t.text = true → before.getLast?.any (·.isPunct ".") = true → t.kind = .name
  /-- A reserved word is a name behind a field access or among the outputs of a signature only. -/
  reserved : t.kind = .name → isReserved t.text = true →
    before.getLast?.any (·.isPunct ".") = true ∨
      ∃ front declares since, before = front ++ declares :: since ∧
        declares.isKeyword "function" = true ∧
        ∀ u ∈ since, u.isNewline = false ∧ ¬ (u.kind = .operator ∧ u.text.toList.head? = some '=')

end Token

theorem lexemes_of_cut {source : String} {before after : List Token} {t : Token}
    (cut : tokenize source = before ++ t :: after) :
    Lexer.lexemes .initial source.toList =
      before.map Token.lexeme ++ t.lexeme :: after.map Token.lexeme := by
  rw [← Token.map_lexeme_tokenize, cut, List.map_append, List.map_cons]

/-- A line end with a token behind it ends an earlier line. -/
theorem one_le_feeds_of_newline {source : String} {since : List Token}
    (members : ∀ v ∈ since, v ∈ tokenize source) {v : Token} (member : v ∈ since)
    (newline : v.isNewline = true) : 1 ≤ Text.feeds (Token.concat since).toList := by
  obtain ⟨front, behind, rfl⟩ := List.append_of_mem member
  have single := feeds_of_mem_tokenize (members v member) newline
  simp only [Token.concat_append, Token.concat_cons, String.toList_append, Text.feeds_append]
  omega

/-- A token that ends on the line where another begins stands behind the last line end before that. -/
theorem mem_openLine_of_endLine {source : String} {before after : List Token} {t u : Token}
    (cut : tokenize source = before ++ t :: after) (member : u ∈ before) (line : u.endLine = t.line) :
    u.lexeme ∈ Lexer.openLine (before.map Token.lexeme) := by
  obtain ⟨front, since, rfl⟩ := List.append_of_mem member
  have begins := line_of_tokenize cut
  have cut' : tokenize source = front ++ u :: (since ++ t :: after) := by simpa using cut
  have ends := line_of_tokenize cut'
  simp only [Token.concat_append, Token.concat_cons, String.toList_append, Text.feeds_append] at begins
  have single := feeds_of_mem_tokenize (show u ∈ tokenize source by simp [cut'])
  rw [Token.endLine] at line
  have within : u.isNewline = false := by
    by_contra newline
    rw [Bool.not_eq_false] at newline
    rw [if_pos newline] at line
    have := single newline
    omega
  have none : ∀ v ∈ since, v.isNewline = false := by
    intro v later
    by_contra newline
    rw [Bool.not_eq_false] at newline
    have members : ∀ v ∈ since, v ∈ tokenize source := fun v member => by simp [cut', member]
    have fed := one_le_feeds_of_newline members later newline
    rw [within] at line
    simp only [Bool.false_eq_true, if_false] at line
    omega
  rw [List.map_append, List.map_cons]
  apply Lexer.mem_openLine
  rw [← List.map_cons, List.forall_mem_map]
  intro v member
  have stays : v.isNewline = false := by
    rcases List.mem_cons.mp member with rfl | later
    · exact within
    · exact none v later
  simpa [Token.isNewline, Token.lexeme] using stays

/-- The kinds of words and quotes are fixed by the tokens before them. -/
theorem labelledBehind_of_tokenize {source : String} {before after : List Token} {t : Token}
    (cut : tokenize source = before ++ t :: after) : t.LabelledBehind before := by
  obtain ⟨st, c, r, past, whole, read, -⟩ := Lexer.exists_step Lexer.recalls_initial (lexemes_of_cut cut)
  rw [List.nil_append] at past
  have kind : t.kind = (Lexer.step st c r).kind := congrArg Prod.fst read
  have text : t.text.toList = c :: (Lexer.step st c r).split.taken := congrArg Prod.snd read
  have spelling : t.text = String.ofList (c :: (Lexer.step st c r).split.taken) := by
    rw [← text, String.ofList_toList]
  have point : st.afterDot = before.getLast?.any (·.isPunct ".") := by
    rw [past.point, List.getLast?_map, Option.any_map]
    congr
    exact funext Token.isPoint_lexeme
  constructor
  case quote =>
    intro quote
    obtain rfl : c = '\'' := by simpa [text] using quote
    have operand : st.afterOperand = before.getLast?.any Token.isOperand := by
      rw [past.operand, List.getLast?_map, Option.any_map]
      rfl
    rw [kind, Lexer.kind_of_quote, operand]
  case block =>
    intro keyword block u member line
    have start := Lexer.lineStart_of_keyword (kind ▸ keyword) (spelling ▸ block)
    rw [past.lineStart, List.all_eq_true] at start
    simpa [Token.isWhitespace, Token.lexeme] using
      start _ (mem_openLine_of_endLine cut member line)
  case field =>
    intro word field
    have letter : isIdentStart c = true := by
      rw [isIdentifier, text, isIdentifierChars, Bool.and_eq_true] at word
      exact word.1
    rw [kind]
    exact Lexer.kind_of_field letter (point.trans field)
  case reserved =>
    intro name reserved
    rcases Lexer.field_or_outputs_of_reserved (kind ▸ name) (spelling ▸ reserved) with field | outputs
    · exact .inl (point ▸ field)
    · obtain ⟨front, since, parts, none⟩ := past.outputs outputs
      obtain ⟨front, rest, rfl, rfl, declared⟩ := List.map_eq_append_iff.mp parts
      obtain ⟨declares, since, rfl, word, rfl⟩ := List.map_eq_cons_iff.mp declared
      refine .inr ⟨front, declares, since, rfl, Token.is_iff.mpr word, fun u member => ?_⟩
      have going := none _ (List.mem_map_of_mem member)
      simpa [Lexer.endsOutputs, Token.lexeme, Token.isNewline] using going

/-- A reserved word among the outputs of a signature, and a quote behind a name. -/
theorem labelledBehind_of_tokenize_output :
    tokenize "function end = f\nx'" =
      [⟨.keyword, "function", 1⟩, ⟨.whitespace, " ", 1⟩] ++ ⟨.name, "end", 1⟩ ::
        [⟨.whitespace, " ", 1⟩, ⟨.operator, "=", 1⟩, ⟨.whitespace, " ", 1⟩, ⟨.nameFunction, "f", 1⟩,
          ⟨.newline, "\n", 1⟩, ⟨.name, "x", 2⟩, ⟨.operator, "'", 2⟩] ∧
      Token.LabelledBehind [⟨.keyword, "function", 1⟩, ⟨.whitespace, " ", 1⟩] ⟨.name, "end", 1⟩ := by
  have cut : tokenize "function end = f\nx'" =
      [⟨.keyword, "function", 1⟩, ⟨.whitespace, " ", 1⟩] ++ ⟨.name, "end", 1⟩ ::
        [⟨.whitespace, " ", 1⟩, ⟨.operator, "=", 1⟩, ⟨.whitespace, " ", 1⟩, ⟨.nameFunction, "f", 1⟩,
          ⟨.newline, "\n", 1⟩, ⟨.name, "x", 2⟩, ⟨.operator, "'", 2⟩] := by
    decide +kernel
  exact ⟨cut, labelledBehind_of_tokenize cut⟩

end MatlabOutline
