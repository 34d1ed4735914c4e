import MatlabOutline.Proofs.LineEndings.Recoding
import MatlabOutline.Proofs.Reports.Run

/-!
Movements and phrases do not depend on how lines end: what is read without notes is the same, and the
cursor behind it stands at the same place (`Cursor.recode`).
-/

namespace MatlabOutline

namespace Cursor

/-- The cursor at the same place of the recoded tokens. -/
def recode (c : Cursor) : Cursor :=
  ⟨c.passed.map Token.recode, c.rest.map Token.recode⟩

/-- Reading begins at the first token in both forms. -/
theorem ofTokens_recode (ts : List Token) : ofTokens (ts.map Token.recode) = (ofTokens ts).recode :=
  rfl

@[simp] theorem peek_recode (c : Cursor) : c.recode.peek = c.peek.map Token.recode := by
  simp [recode, peek]

@[simp] theorem previous_recode (c : Cursor) : c.recode.previous = c.previous.map Token.recode := by
  simp [recode, previous]

@[simp] theorem atEnd_recode (c : Cursor) : c.recode.atEnd = c.atEnd := by
  simp [recode, atEnd]

/-- No token changes its line. -/
@[simp] theorem line_recode (c : Cursor) : c.recode.line = c.line := by
  rcases c with ⟨_ | ⟨p, passed⟩, _ | ⟨t, rest⟩⟩ <;> simp [recode, line]

@[simp] theorem advance_recode (c : Cursor) : c.recode.advance = c.advance.recode := by
  rcases c with ⟨passed, _ | ⟨t, rest⟩⟩ <;> rfl

section Predicates

variable {p : Token → Bool} (same : ∀ t, p t.recode = p t)

include same

@[simp] theorem at?_recode (c : Cursor) : c.recode.at? p = c.at? p := by
  rcases c with ⟨passed, _ | ⟨t, rest⟩⟩
  · rfl
  · exact same t

/-- The same token is taken, in its recoded form. -/
theorem take?_recode (c : Cursor) :
    c.recode.take? p = (c.take? p).map fun x => (x.1.recode, x.2.recode) := by
  rcases c with ⟨passed, _ | ⟨t, rest⟩⟩
  · rfl
  · simp only [recode, take?, List.map_cons, same]
    split <;> rfl

@[simp] theorem skipIf_recode (c : Cursor) : c.recode.skipIf p = (c.skipIf p).recode := by
  rw [skipIf, skipIf, take?_recode same]
  cases c.take? p <;> rfl

/-- A marker and the line end behind it are passed in both forms. -/
theorem skipFrom_recode (joined : Bool) (passed ts : List Token) :
    skipFrom p joined (passed.map Token.recode) (ts.map Token.recode) = (skipFrom p joined passed ts).recode := by
  fun_induction skipFrom p joined passed ts with
  | case1 => rfl
  | case2 joined passed t r taken ih =>
    rw [List.map_cons, skipFrom, same, Token.isNewline_recode, if_pos taken]
    exact ih
  | case3 joined passed t r other marker ih =>
    rw [List.map_cons, skipFrom, same, Token.isNewline_recode, if_neg other, Token.isContinuation_recode,
      if_pos marker]
    exact ih
  | case4 joined passed t r other marker =>
    rw [List.map_cons, skipFrom, same, Token.isNewline_recode, if_neg other, Token.isContinuation_recode,
      if_neg marker]
    rfl

/-- Skipping stops at the same token if what is skipped does not depend on line ends. -/
@[simp] theorem skip_recode (c : Cursor) : c.recode.skip p = (c.skip p).recode :=
  skipFrom_recode same false c.passed c.rest

end Predicates

@[simp] theorem skipWhitespace_recode (c : Cursor) : c.recode.skipWhitespace = c.skipWhitespace.recode :=
  skip_recode (by simp) c

@[simp] theorem skipSpacing_recode (c : Cursor) : c.recode.skipSpacing = c.skipSpacing.recode :=
  skip_recode (by simp) c

@[simp] theorem skipSeparators_recode (c : Cursor) : c.recode.skipSeparators = c.skipSeparators.recode :=
  skip_recode (by simp) c

/-- A line ends at the same token, however the line end is written. -/
@[simp] theorem skipLine_recode (c : Cursor) : c.recode.skipLine = c.skipLine.recode := by
  have from_ (passed ts : List Token) :
      skipLineFrom (passed.map Token.recode) (ts.map Token.recode) = (skipLineFrom passed ts).recode := by
    fun_induction skipLineFrom passed ts with
    | case1 => rfl
    | case2 passed t r newline => simp [skipLineFrom, newline, recode]
    | case3 passed t r within ih => simpa [skipLineFrom, within] using ih
  exact from_ c.passed c.rest

/-- A token that is no line end and no comment is taken as it is. -/
theorem take?_recode_of_fixed {p : Token → Bool} (same : ∀ t, p t.recode = p t)
    (fixed : ∀ t, p t = true → t.recode = t) (c : Cursor) :
    c.recode.take? p = (c.take? p).map fun x => (x.1, x.2.recode) := by
  rw [take?_recode same]
  rcases c with ⟨passed, _ | ⟨t, rest⟩⟩
  · rfl
  · simp only [take?]
    split
    · next holds => simp [fixed t holds]
    · rfl

@[simp] theorem isName_recode (t : Token) : isName t.recode = isName t := by
  simp [isName]

@[simp] theorem isString_recode (t : Token) : isString t.recode = isString t := by
  simp [isString]

/-- Names and strings have no line ends in them. -/
theorem recode_of_isName {t : Token} (name : isName t = true) : t.recode = t := by
  have kind : t.kind = .name := by simpa [isName] using name
  exact Token.recode_of_kind (by simp [kind]) (by simp [kind])

theorem recode_of_isString {t : Token} (quoted : isString t = true) : t.recode = t := by
  have kind : t.kind = .string := by simpa [isString] using quoted
  exact Token.recode_of_kind (by simp [kind]) (by simp [kind])

theorem take?_isName_recode (c : Cursor) :
    c.recode.take? isName = (c.take? isName).map fun x => (x.1, x.2.recode) :=
  take?_recode_of_fixed isName_recode (fun _ => recode_of_isName) c

/-- A dotted name is the same text. -/
theorem dottedFrom_recode (name : String) (passed ts : List Token) :
    dottedFrom name (passed.map Token.recode) (ts.map Token.recode) =
      ((dottedFrom name passed ts).1, (dottedFrom name passed ts).2.recode) := by
  fun_induction dottedFrom name passed ts with
  | case1 name passed dot part r further ih =>
    have fixed : part.recode = part := recode_of_isName (Bool.and_eq_true .. ▸ further).2
    simpa [dottedFrom, further, fixed] using ih
  | case2 name passed dot part r ended => simp [dottedFrom, ended, recode]
  | case3 name passed ts short =>
    rcases ts with _ | ⟨t, _ | ⟨u, ts⟩⟩
    · rfl
    · rfl
    · exact absurd rfl (short t u ts)

@[simp] theorem dottedName?_recode (c : Cursor) :
    c.recode.dottedName? = c.dottedName?.map fun x => (x.1, x.2.recode) := by
  rw [dottedName?, dottedName?, take?_isName_recode]
  rcases c.take? isName with _ | ⟨t, c'⟩
  · rfl
  · exact congrArg some (dottedFrom_recode t.text c'.passed c'.rest)

/-- The comment that ends a line is recoded with it. -/
@[simp] theorem finishLine_recode (c : Cursor) :
    c.recode.finishLine = (c.finishLine.1.map Token.recode, c.finishLine.2.recode) := by
  simp only [finishLine, skipSeparators_recode, take?_recode Token.isRemark_recode]
  rcases c.skipSeparators.take? Token.isRemark with _ | ⟨t, c'⟩ <;>
    simp [skipIf_recode Token.isNewline_recode]

/-- What ends a line can document something. -/
theorem isRemark_of_finishLine {c : Cursor} {t : Token} (behind : c.finishLine.1 = some t) :
    t.isRemark = true := by
  rw [finishLine] at behind
  split at behind
  · next u c' taken =>
    obtain rfl : u = t := by simpa using behind
    exact (peek_take? taken).2
  · simp at behind

/-- Keywords are not recoded. -/
@[simp] theorem isOpener_recode (t : Token) : isOpener t.recode = isOpener t := by
  by_cases word : t.kind = .keyword
  · rw [Token.recode_of_kind (by simp [word]) (by simp [word])]
  · simp [isOpener, beq_false_of_ne word]

/-- Blocks and brackets are counted in tokens that are not recoded. -/
theorem skipBlockFrom_recode (inner brackets : Nat) (passed ts : List Token) :
    skipBlockFrom inner brackets (passed.map Token.recode) (ts.map Token.recode) =
      ((skipBlockFrom inner brackets passed ts).1, (skipBlockFrom inner brackets passed ts).2.recode) := by
  fun_induction skipBlockFrom inner brackets passed ts <;> simp_all [skipBlockFrom, recode]

/-- The `end` of a block is found in both forms or in none. -/
@[simp] theorem skipBlock_recode (c : Cursor) :
    c.recode.skipBlock = (c.skipBlock.1, c.skipBlock.2.recode) :=
  skipBlockFrom_recode 0 0 c.passed c.rest

/-- A comment is recoded by its text. -/
theorem text_recode_of_remark {t : Token} (remark : t.isRemark = true) :
    t.recode.text = Docstring.recode t.text := by
  have kind : t.kind = .comment := by
    simp only [Token.isRemark, Bool.and_eq_true, beq_iff_eq] at remark
    exact remark.1
  rw [Token.recode_comment kind]

/-- One comment says the same in both forms. -/
theorem ofComments_of_remark {t : Token} (remark : t.isRemark = true) :
    Docstring.ofComments [t.recode.text] = Docstring.ofComments [t.text] := by
  rw [text_recode_of_remark remark]
  exact Docstring.ofComments_recode [t.text]

/-- A run of comment lines, by the token that comes first. -/
theorem commentRun_eq (c : Cursor) :
    c.commentRun =
      match c.skipWhitespace.take? Token.isRemark with
      | some (t, c') =>
        (t.text :: (c'.skipIf Token.isNewline).commentRun.1, (c'.skipIf Token.isNewline).commentRun.2)
      | none => ([], c) := by
  rw [commentRun.eq_def]
  split <;> simp [*]

/-- The comments of a run are recoded, and the run ends at the same place. -/
@[simp] theorem commentRun_recode (c : Cursor) :
    c.recode.commentRun = (c.commentRun.1.map Docstring.recode, c.commentRun.2.recode) := by
  fun_induction commentRun c with
  | case1 c t c' taken further ih =>
    have text := text_recode_of_remark (peek_take? taken).2
    rw [commentRun_eq, skipWhitespace_recode, take?_recode Token.isRemark_recode, taken]
    simp only [Option.map_some, skipIf_recode Token.isNewline_recode, ih, text, List.map_cons, further]
  | case2 c none =>
    rw [commentRun_eq, skipWhitespace_recode, take?_recode Token.isRemark_recode, none]
    rfl

theorem stringRun_eq (text : String) (c : Cursor) :
    c.stringRun text =
      match c.take? isString with
      | some (t, c') => stringRun (text ++ unquote t.text) c'.skipWhitespace
      | none => (text, c) := by
  rw [stringRun.eq_def]
  split <;> simp [*]

/-- What successive strings say has no line end in it. -/
@[simp] theorem stringRun_recode (text : String) (c : Cursor) :
    c.recode.stringRun text = ((c.stringRun text).1, (c.stringRun text).2.recode) := by
  have taken? := take?_recode_of_fixed isString_recode fun _ => recode_of_isString
  fun_induction stringRun text c with
  | case1 text c t c' taken ih =>
    rw [stringRun_eq, taken?, taken]
    simpa using ih
  | case2 text c none =>
    rw [stringRun_eq, taken?, none]
    rfl

/-- A size has numbers, `:` and commas only, which are not recoded. -/
theorem sizeFrom_recode (joined : Bool) (passed ts : List Token) :
    sizeFrom joined (passed.map Token.recode) (ts.map Token.recode) =
      ((sizeFrom joined passed ts).1, (sizeFrom joined passed ts).2.recode) := by
  induction ts generalizing joined passed with
  | nil => rfl
  | cons t r ih =>
    have rest := ih t.isContinuation (t :: passed)
    rw [List.map_cons] at rest
    simp only [List.map_cons, sizeFrom, Token.isPunct_recode, Token.isNewline_recode, Token.isContinuation_recode,
      Token.isSpacing_recode, Token.isOperator_recode, Token.kind_recode, rest]
    by_cases number : t.kind = .number
    · rw [Token.text_recode (by simp [Token.isNewline, number]) (by simp [number])]
      cases Numeral.word? t.text <;> simp only <;> repeat' split
      all_goals rfl
    · simp only [beq_false_of_ne number, Bool.false_eq_true, if_false]
      repeat' split
      all_goals rfl

/-- A line end within brackets counts as a blank, and comments are left out. -/
theorem validatorsFrom_recode (current : String) (depth : Nat) (passed ts : List Token) :
    validatorsFrom current depth (passed.map Token.recode) (ts.map Token.recode) =
      ((validatorsFrom current depth passed ts).1, (validatorsFrom current depth passed ts).2.recode) := by
  induction ts generalizing current depth passed with
  | nil => rfl
  | cons t r ih =>
    have rest (current : String) (depth : Nat) := ih current depth (t :: passed)
    simp only [List.map_cons] at rest
    simp only [List.map_cons, validatorsFrom, Token.isNewline_recode, Token.isCloseBracket_recode,
      Token.isPunct_recode, Token.isOpenBracket_recode, Token.kind_recode, rest]
    by_cases newline : t.isNewline = true
    · simp only [newline, if_true]
      split <;> rfl
    by_cases remark : t.kind = .comment
    · simp only [newline, Token.isCloseBracket, Token.isOpenBracket, Token.isPunct, Token.is, remark]
      rfl
    rw [Token.text_recode (by simpa using newline) (beq_false_of_ne remark)]
    cases depth <;> simp only <;> repeat' split
    all_goals rfl

@[simp] theorem validators_recode (c : Cursor) : c.recode.validators = (c.validators.1, c.validators.2.recode) := by
  have read := validatorsFrom_recode "" 0 c.passed c.rest
  simp only [validators, recode] at read ⊢
  rw [read]

@[simp] theorem endsDefault_recode (t : Token) : endsDefault t.recode = endsDefault t := by
  simp [endsDefault]

@[simp] theorem bracketDepth_recode (depth : Nat) (t : Token) :
    bracketDepth depth t.recode = bracketDepth depth t := by
  simp [bracketDepth]

/-- A line end in a default value is written as a line feed in both forms. -/
@[simp] theorem defaultPiece_recode (t : Token) : defaultPiece t.recode = defaultPiece t := by
  simp only [defaultPiece, Token.isNewline_recode, Token.kind_recode]
  split
  · rfl
  · next within =>
    split
    · rfl
    · next code => exact Token.text_recode (by simpa using within) (by simpa using code)

/-- A default value, by its first token. -/
theorem defaultFrom_eq (depth : Nat) (c : Cursor) :
    c.defaultFrom depth =
      match c.peek with
      | none => ("", c)
      | some t =>
        if t.isContinuation then defaultFrom depth c.skipWhitespace
        else if depth == 0 && endsDefault t then ("", c)
        else
          (defaultPiece t ++ (defaultFrom (bracketDepth depth t) c.advance).1,
            (defaultFrom (bracketDepth depth t) c.advance).2) := by
  rw [defaultFrom.eq_def]
  split <;> simp [*]

/-- A default value is the same text. -/
theorem defaultFrom_recode (depth : Nat) (c : Cursor) :
    c.recode.defaultFrom depth = ((c.defaultFrom depth).1, (c.defaultFrom depth).2.recode) := by
  fun_induction defaultFrom depth c with
  | case1 depth c none => simp [defaultFrom_eq, none]
  | case2 depth c t here marker ih => simp [defaultFrom_eq depth c.recode, here, marker, ih]
  | case3 depth c t here marker ends => simp [defaultFrom_eq depth c.recode, here, marker, ends]
  | case4 depth c t here marker going text c' read ih =>
    simp [defaultFrom_eq depth c.recode, here, marker, going, ih, read]

/-- The parts of an entry are the same, one behind the other. -/
@[simp] theorem entryName_recode (dotted : Bool) (c : Cursor) :
    c.recode.entryName dotted = ((c.entryName dotted).1, (c.entryName dotted).2.recode) := by
  rw [entryName, entryName, dottedName?_recode, take?_isName_recode]
  split
  · cases c.dottedName? <;> rfl
  · cases c.take? isName <;> rfl

@[simp] theorem entryType_recode (c : Cursor) : c.recode.entryType = (c.entryType.1, c.entryType.2.recode) := by
  rw [entryType, entryType, dottedName?_recode]
  cases c.dottedName? <;> simp

@[simp] theorem entryValidators_recode (c : Cursor) :
    c.recode.entryValidators = (c.entryValidators.1, c.entryValidators.2.recode) := by
  rw [entryValidators, entryValidators, take?_recode (by simp)]
  rcases c.take? _ with _ | ⟨t, c'⟩ <;> simp

@[simp] theorem entryDefault_recode (c : Cursor) :
    c.recode.entryDefault = (c.entryDefault.1, c.entryDefault.2.recode) := by
  rw [entryDefault, entryDefault, take?_recode (by simp)]
  rcases c.take? _ with _ | ⟨t, c'⟩
  · rfl
  · simp [defaultText, defaultFrom_recode]

end Cursor

end MatlabOutline
