import MatlabOutline.Declaration.Class
import MatlabOutline.Proofs.LineEndings.Lexing

/-!
Tokens of a text and of the same text with its lines ended by a carriage return and a line feed. They
differ in the texts of line ends and of block comments only (`Token.recode`), and such comments say the
same (`Docstring.ofComments_recode`).
-/

namespace MatlabOutline

namespace Text

/-- The text with each carriage return before a line feed left out. -/
def unix : List Char → List Char
  | [] => []
  | c :: r => if c = '\r' ∧ r.head? = some '\n' then unix r else c :: unix r

/-- Pieces can be turned back one by one if no pair is cut in two. -/
theorem unix_append {cs ds : List Char} (apart : cs.getLast? ≠ some '\r' ∨ ds.head? ≠ some '\n') :
    unix (cs ++ ds) = unix cs ++ unix ds := by
  induction cs with
  | nil => rfl
  | cons c cs ih =>
    rcases cs with _ | ⟨d, cs⟩
    · have kept : ¬ (c = '\r' ∧ ds.head? = some '\n') := by
        rintro ⟨rfl, head⟩
        simp [head] at apart
      simp [unix, kept]
    · have rest := ih (by simpa using apart)
      rw [List.cons_append, unix, unix, rest, List.cons_append, List.head?_cons, List.head?_cons]
      split <;> rfl

theorem unix_of_not_mem {cs : List Char} (plain : '\r' ∉ cs) : unix cs = cs := by
  induction cs with
  | nil => rfl
  | cons c cs ih =>
    rw [List.mem_cons, not_or] at plain
    rw [unix, if_neg fun pair => plain.1 pair.1.symm, ih plain.2]

/-- Turning line ends back gives the text that was written. -/
theorem unix_write (cs : List Char) : unix (LineEnding.carriage.write cs) = cs := by
  induction cs with
  | nil => rfl
  | cons c cs ih =>
    by_cases line : c = '\n'
    · rw [line, LineEnding.write_line]
      simp [LineEnding.chars, unix, ih]
    · have head : (LineEnding.carriage.write cs).head? ≠ some '\n' := by
        rcases cs with _ | ⟨d, cs⟩
        · simp
        · by_cases next : d = '\n'
          · simp [next, LineEnding.chars]
          · simp [LineEnding.write_cons _ next, next]
      rw [LineEnding.write_cons _ line, unix, if_neg fun pair => head pair.2, ih]

/-- The end of a line is cut behind any other character. -/
theorem chomp_cons {c : Char} (line : c ≠ '\n') (carriage : c ≠ '\r') (cs : List Char) :
    chomp (c :: cs) = c :: chomp cs := by
  have cut : cs = cs.reverse.reverse := (List.reverse_reverse cs).symm
  rw [chomp, chomp, List.reverse_cons]
  generalize cs.reverse = r at cut
  subst cut
  rcases r with _ | ⟨d, r⟩
  · simp [line]
  by_cases last : d = '\n'
  · subst last
    rcases r with _ | ⟨e, r⟩
    · simp [carriage]
    · by_cases pair : e = '\r' <;> simp [pair]
  · simp [last]

theorem lines_line (cs : List Char) : lines ('\n' :: cs) = [] :: lines cs :=
  rfl

/-- A character within a line is put before the first line of the rest. -/
theorem lines_cons {c : Char} (line : c ≠ '\n') (carriage : c ≠ '\r') (cs : List Char) :
    lines (c :: cs) =
      match lines cs with
      | [] => [[c]]
      | l :: ls => (c :: l) :: ls := by
  rw [lines, pieces]
  · rcases cut : pieces cs with _ | ⟨p, ps⟩
    · simp [lines, cut, chomp, line]
    · simp [lines, cut, chomp_cons line carriage]
  · exact line

/-- The lines of a text do not change with the way in which they end. -/
theorem lines_write {cs : List Char} (plain : '\r' ∉ cs) :
    lines (LineEnding.carriage.write cs) = lines cs := by
  induction cs with
  | nil => rfl
  | cons c cs ih =>
    rw [List.mem_cons, not_or] at plain
    by_cases line : c = '\n'
    · rw [line, LineEnding.write_line, lines_line, ← ih plain.2]
      rfl
    · rw [LineEnding.write_cons _ line, lines_cons line (Ne.symm plain.1),
        lines_cons line (Ne.symm plain.1), ih plain.2]

end Text

namespace Docstring

/-- Whether a comment may run over lines. -/
def isBlock (cs : List Char) : Bool :=
  ['%', '\x7b'].isPrefixOf cs && !cs.contains '\r'

/-- A comment with its lines ended in the other way. -/
def recode (comment : String) : String :=
  if isBlock comment.toList then LineEnding.carriage.rewrite comment else comment

/-- A block comment in which no carriage return stands yet. -/
theorem isBlock_iff {cs : List Char} :
    isBlock cs = true ↔ ['%', '\x7b'].isPrefixOf cs = true ∧ '\r' ∉ cs := by
  simp [isBlock]

theorem toList_recode (comment : String) :
    (recode comment).toList =
      if isBlock comment.toList then LineEnding.carriage.write comment.toList else comment.toList := by
  rw [recode]
  split
  · exact String.toList_ofList
  · rfl

/-- A comment runs over the same number of lines. -/
theorem feeds_recode (comment : String) : Text.feeds (recode comment).toList = Text.feeds comment.toList := by
  rw [toList_recode]
  split
  · exact LineEnding.carriage.feeds_write _
  · rfl

/-- Turned back, both comments are one text. -/
theorem unix_recode (comment : String) : Text.unix (recode comment).toList = Text.unix comment.toList := by
  rw [toList_recode]
  split
  · next block => rw [Text.unix_write, Text.unix_of_not_mem (isBlock_iff.mp block).2]
  · rfl

/-- The opening of a block is not changed. -/
theorem write_block {cs : List Char} (block : ['%', '\x7b'].isPrefixOf cs = true) :
    ∃ r, cs = '%' :: '\x7b' :: r ∧
      LineEnding.carriage.write cs = '%' :: '\x7b' :: LineEnding.carriage.write r := by
  obtain ⟨r, rfl⟩ := List.isPrefixOf_iff_prefix.mp block
  refine ⟨r, rfl, ?_⟩
  simp [LineEnding.write_cons]

/-- A marker is no block comment and stays a marker. -/
theorem isContinuation_recode (comment : String) :
    ['.', '.', '.'].isPrefixOf (recode comment).toList = ['.', '.', '.'].isPrefixOf comment.toList := by
  rw [toList_recode]
  split
  · next block =>
    obtain ⟨r, same, written⟩ := write_block (isBlock_iff.mp block).1
    rw [written, same]
    rfl
  · rfl

/-- The lines of a comment are the same. -/
theorem commentLines_recode (comment : String) :
    commentLines (recode comment).toList = commentLines comment.toList := by
  rw [toList_recode]
  split
  · next block =>
    obtain ⟨opens, plain⟩ := isBlock_iff.mp block
    have written : ['%', '\x7b'].isPrefixOf (LineEnding.carriage.write comment.toList) = true := by
      obtain ⟨r, -, written⟩ := write_block opens
      rw [written]
      rfl
    rw [commentLines, commentLines, if_pos written, if_pos opens, Text.lines_write plain]
  · rfl

/-- Comments say the same however their lines end. -/
@[simp] theorem ofComments_recode (comments : List String) :
    ofComments (comments.map recode) = ofComments comments := by
  have said : (comments.map recode).flatMap (fun c => commentLines c.toList) =
      comments.flatMap fun c => commentLines c.toList := by
    simp [List.flatMap_map, commentLines_recode]
  simp only [ofComments, clean, linesOf, said]

end Docstring

namespace Token

/-- The token of the text with its lines ended by a carriage return and a line feed. -/
def recode (t : Token) : Token :=
  match t.kind with
  | .newline => { t with text := LineEnding.carriage.rewrite t.text }
  | .comment => { t with text := Docstring.recode t.text }
  | _ => t

/-- Only line ends and comments are recoded. -/
theorem recode_of_kind {t : Token} (line : t.kind ≠ .newline) (remark : t.kind ≠ .comment) :
    t.recode = t := by
  rw [recode]
  split <;> first | contradiction | rfl

theorem text_recode {t : Token} (within : t.isNewline = false) (remark : (t.kind == .comment) = false) :
    t.recode.text = t.text := by
  rw [recode_of_kind (by simpa [isNewline] using within) (by simpa using remark)]

theorem recode_comment {t : Token} (remark : t.kind = .comment) :
    t.recode = { t with text := Docstring.recode t.text } := by
  rw [recode, remark]

/-- Recoding keeps the kind and the line of a token. -/
@[simp] theorem kind_recode (t : Token) : t.recode.kind = t.kind := by
  rw [recode]
  split <;> simp [*]

@[simp] theorem line_recode (t : Token) : t.recode.line = t.line := by
  rw [recode]
  split <;> rfl

/-- A token is told by its text where its kind is no line end and no comment. -/
theorem is_recode (t : Token) {kind : TokenKind} (line : kind ≠ .newline) (remark : kind ≠ .comment)
    (text : String) : t.recode.is kind text = t.is kind text := by
  by_cases same : t.kind = kind
  · subst same
    rw [recode_of_kind line remark]
  · simp [is, beq_false_of_ne same]

@[simp] theorem isKeyword_recode (t : Token) (word : String) : t.recode.isKeyword word = t.isKeyword word :=
  t.is_recode (by simp) (by simp) word

@[simp] theorem isPunct_recode (t : Token) (mark : String) : t.recode.isPunct mark = t.isPunct mark :=
  t.is_recode (by simp) (by simp) mark

@[simp] theorem isOperator_recode (t : Token) (mark : String) : t.recode.isOperator mark = t.isOperator mark :=
  t.is_recode (by simp) (by simp) mark

@[simp] theorem isNewline_recode (t : Token) : t.recode.isNewline = t.isNewline := by
  simp [isNewline]

@[simp] theorem isWhitespace_recode (t : Token) : t.recode.isWhitespace = t.isWhitespace := by
  simp [isWhitespace]

@[simp] theorem isSpacing_recode (t : Token) : t.recode.isSpacing = t.isSpacing := by
  simp [isSpacing]

@[simp] theorem isContinuation_recode (t : Token) : t.recode.isContinuation = t.isContinuation := by
  by_cases remark : t.kind = .comment
  · rw [recode_comment remark, isContinuation, isContinuation, Docstring.isContinuation_recode]
  · simp [isContinuation, beq_false_of_ne remark]

/-- A comment that can document something still can. -/
@[simp] theorem isRemark_recode (t : Token) : t.recode.isRemark = t.isRemark := by
  simp [isRemark]

@[simp] theorem isOpenBracket_recode (t : Token) : t.recode.isOpenBracket = t.isOpenBracket := by
  simp [isOpenBracket]

@[simp] theorem isCloseBracket_recode (t : Token) : t.recode.isCloseBracket = t.isCloseBracket := by
  simp [isCloseBracket]

/-- A token ends on the same line. -/
@[simp] theorem endLine_recode (t : Token) : t.recode.endLine = t.endLine := by
  by_cases line : t.kind = .newline
  · simp [endLine, isNewline, line]
  · by_cases remark : t.kind = .comment
    · rw [recode_comment remark]
      simp [endLine, isNewline, Docstring.feeds_recode]
    · rw [recode_of_kind line remark]

/-- Messages show both tokens alike. -/
theorem unix_describe_recode (t : Token) :
    Text.unix t.recode.describe.toList = Text.unix t.describe.toList := by
  by_cases line : t.kind = .newline
  · simp [describe, line]
  by_cases remark : t.kind = .comment
  · have quoted (s : String) : Text.unix ("`" ++ s ++ "`").toList = '`' :: (Text.unix s.toList ++ ['`']) := by
      rw [String.toList_append, String.toList_append, Text.unix_append (.inr (by simp)),
        Text.unix_append (.inl (by simp))]
      simp [Text.unix]
    rw [recode_comment remark]
    simp only [describe, remark, quoted, Docstring.unix_recode]
  · rw [recode_of_kind line remark]

end Token

end MatlabOutline
