import MatlabOutline.Proofs.Lexing.Shapes

/-!
Lexemes that are read as they are written, whatever lexemes are written behind them: words, marks,
numbers, strings and the white space between them (`Lexer.Reads`).
-/

namespace MatlabOutline

namespace Scan

theorem spaces_of_solid {c : Char} (solid : isBlank c = false) (r : List Char) :
    spaces (c :: r) = ⟨[], c :: r⟩ := by
  have going : atLineEnd (c :: r) = false := by
    cases ended : atLineEnd (c :: r) with
    | false => rfl
    | true =>
      rcases atLineEnd_cons_iff.mp ended with rfl | ⟨rfl, -⟩ <;> exact absurd solid (by decide)
  simp [spaces_cons, going, solid]

/-- What ends a word, a number or a string in a list. -/
def endsItem (c : Char) : Bool :=
  isBlank c || c == ',' || c == ')' || c == '\x7d'

theorem not_isIdentRest_of_endsItem {c : Char} (ends : endsItem c = true) : isIdentRest c = false := by
  cases ident : isIdentRest c with
  | false => rfl
  | true =>
    simp only [endsItem, not_isBlank_of_isIdentRest c ident, Bool.false_or, Bool.or_eq_true, beq_iff_eq] at ends
    rcases ends with (rfl | rfl) | rfl <;> revert ident <;> decide

theorem ne_of_endsItem {c d : Char} (ends : endsItem c = true) (other : endsItem d = false) : c ≠ d := by
  rintro rfl
  simp [other] at ends

/-- A run of digits is a whole number before whatever ends an item. -/
theorem numberRest_digits {c d : Char} {ds : List Char} (number : (c :: ds).all Char.isDigit = true)
    (ends : endsItem d = true) (r : List Char) : numberRest c (ds ++ d :: r) = ⟨ds, d :: r⟩ := by
  rw [List.all_cons, Bool.and_eq_true] at number
  have ident := not_isIdentRest_of_endsItem ends
  have digit : d.isDigit = false := by
    simp only [isIdentRest, Char.isAlphanum, Bool.or_eq_false_iff] at ident
    exact ident.1.2
  have point : c ≠ '.' := by
    rintro rfl
    exact absurd number.1 (by decide)
  have plain : startsHex (ds ++ d :: r) = false := by
    cases hex : startsHex (ds ++ d :: r) with
    | false => rfl
    | true =>
      rcases ds with _ | ⟨x, ds⟩
      · rcases startsHex_letter hex with rfl | rfl <;> revert ends <;> decide
      · simp only [List.all_cons, Bool.and_eq_true] at number
        rcases startsHex_letter hex with rfl | rfl <;> exact absurd number.2.1 (by decide)
  have whole : digits (ds ++ d :: r) = ⟨ds, d :: r⟩ := run_of_head number.2 (by simpa using digit)
  have fraction : fraction (d :: r) = ⟨[], d :: r⟩ :=
    fraction_of_head (by simpa using ne_of_endsItem ends (by decide))
  have exponent : exponent (d :: r) = ⟨[], d :: r⟩ := by
    apply exponent_of_not_mark
    simp [isExponentMark, ne_of_endsItem ends (d := 'e') (by decide),
      ne_of_endsItem ends (d := 'E') (by decide), ne_of_endsItem ends (d := 'd') (by decide),
      ne_of_endsItem ends (d := 'D') (by decide)]
  have imaginary : imaginary (d :: r) = ⟨[], d :: r⟩ := by
    simp [imaginary, ne_of_endsItem ends (d := 'i') (by decide), ne_of_endsItem ends (d := 'j') (by decide)]
  rw [numberRest_decimal point (by simp [plain])]
  simp [Split.andThen, Split.prepend, whole, fraction, exponent, imaginary]

/-- The text of a string between its quotes. -/
def doubled (quote : Char) (content : List Char) : List Char :=
  content.flatMap fun c => if c = quote then [quote, quote] else [c]

theorem head?_doubled_append (quote c : Char) (content r : List Char) :
    (doubled quote (c :: content) ++ r).head? = some c := by
  by_cases same : c = quote <;> simp [doubled, same]

/-- The content of a string is read whole, whatever comes behind it. -/
theorem stringBody_doubled_append {quote : Char} (mark : quote = '\'' ∨ quote = '"') {content : List Char}
    (within : '\n' ∉ content) {r : List Char} (apart : Lexer.NoBreak content r) :
    stringBody quote (doubled quote content ++ r) = (stringBody quote r).prepend (doubled quote content) := by
  induction content with
  | nil => rfl
  | cons c content ih =>
    rw [List.mem_cons, not_or] at within
    have rest := ih within.2 apart.tail
    by_cases first : c = quote
    · subst first
      have cut : doubled c (c :: content) = c :: c :: doubled c content := by simp [doubled]
      rw [cut, List.cons_append, List.cons_append, stringBody_quote (going_of_quote mark _), secondQuote]
      simp [rest, Split.push, Split.prepend]
    · have cut : doubled quote (c :: content) = c :: doubled quote content := by simp [doubled, first]
      have next : c = '\r' → (doubled quote content ++ r).head? ≠ some '\n' := by
        rcases content with _ | ⟨d, content⟩
        · simpa [doubled, Lexer.NoBreak] using apart
        · rw [List.mem_cons, not_or] at within
          rw [head?_doubled_append]
          simpa using fun _ => Ne.symm within.2.1
      have going : atLineEnd (c :: (doubled quote content ++ r)) = false := by
        simpa [atLineEnd, Ne.symm within.1] using next
      rw [cut, List.cons_append, stringBody_cons, going, if_neg (by simp), if_neg first, rest]
      rfl

theorem stringBody_doubled {quote : Char} (mark : quote = '\'' ∨ quote = '"') {content : List Char}
    (within : '\n' ∉ content) {r : List Char} (other : r.head? ≠ some quote) :
    stringBody quote (doubled quote content ++ quote :: r) = ⟨doubled quote content ++ [quote], r⟩ := by
  have apart : Lexer.NoBreak content (quote :: r) := by
    rcases mark with rfl | rfl <;> simp [Lexer.NoBreak]
  rw [stringBody_doubled_append mark within apart, stringBody_quote (going_of_quote mark r), secondQuote,
    if_neg other]
  rfl

end Scan

namespace Lexer

open Scan

/-- Within a line the lexemes are read as they are written before `r`. -/
def Reads (xs : List (TokenKind × List Char)) (r : List Char) : Prop :=
  lexemes {} (spelled xs ++ r) = xs ++ lexemes {} r

theorem Reads.nil (r : List Char) : Reads [] r :=
  rfl

/-- An operand matters only to a quote right behind it. -/
theorem lexemes_operand_plain (st : LexState) {r : List Char} (quote : r.head? ≠ some '\'') :
    lexemes st.operand r = lexemes st.plain r := by
  rcases r with _ | ⟨c, r⟩
  · rw [lexemes, lexemes]
  · have other : (c == '\'') = false := by simpa using quote
    have same : step st.operand c r = step st.plain c r := by
      rw [step, step, other]
      rfl
    rw [lexemes, lexemes, same]

theorem lexemes_operand {r : List Char} (quote : r.head? ≠ some '\'') :
    lexemes (LexState.operand {}) r = lexemes {} r :=
  lexemes_operand_plain {} quote

section Words

variable {st : LexState} {c : Char} {cs z : List Char}

theorem step_word (plain : st.signature = .none)
    (within : st.lineStart = false ∨ isBlockWord (String.ofList (c :: cs)) = false)
    (field : st.afterDot = false) (word : isIdentifierChars (c :: cs) = true)
    (free : isReserved (String.ofList (c :: cs)) = false) (stop : z.head?.any isIdentRest = false) :
    step st c (cs ++ z) = ⟨.name, ⟨cs, z⟩, st.operand⟩ := by
  rw [isIdentifierChars, Bool.and_eq_true] at word
  have other : String.ofList (c :: cs) ≠ "function" := by
    intro spelled
    rw [spelled] at free
    exact absurd free (by decide)
  have kind : wordKind st (String.ofList (c :: cs)) z = .name := by
    have name : (isBlockWord (String.ofList (c :: cs)) && st.lineStart && endsBlockWord z) = false := by
      rcases within with start | block
      · rw [start, Bool.and_false, Bool.false_and]
      · rw [block, Bool.false_and, Bool.false_and]
    rw [wordKind, free, name]
    rfl
  have none : signatureAfter (String.ofList (c :: cs)) z = .none := by
    rw [signatureAfter, if_neg (by simpa using other)]
  rw [step_of_letter word.1, word_plain field plain, run_of_head word.2 stop]
  simp only [kind, none]
  rw [LexState.operand, plain]

theorem step_field (field : st.afterDot = true) (word : isIdentifierChars (c :: cs) = true)
    (stop : z.head?.any isIdentRest = false) : step st c (cs ++ z) = ⟨.name, ⟨cs, z⟩, st.operand⟩ := by
  rw [isIdentifierChars, Bool.and_eq_true] at word
  rw [step_of_letter word.1, word_field field, run_of_head word.2 stop]

end Words

namespace Reads

variable {xs : List (TokenKind × List Char)} {r : List Char} (rest : Reads xs r)
include rest

theorem cons {kind : TokenKind} {c : Char} {cs : List Char} (next : LexState)
    (step : step {} c (cs ++ (spelled xs ++ r)) = ⟨kind, ⟨cs, spelled xs ++ r⟩, next⟩)
    (resumed : lexemes next (spelled xs ++ r) = lexemes {} (spelled xs ++ r)) :
    Reads ((kind, c :: cs) :: xs) r := by
  rw [Reads, spelled_cons, List.cons_append, List.cons_append, List.append_assoc, lexemes_of_step step, resumed, rest]
  rfl

theorem space {w : List Char} (gap : IsGap w) (filled : w ≠ [])
    (solid : (spelled xs ++ r).head?.any (!isBlank ·) = true) : Reads ((.whitespace, w) :: xs) r := by
  rcases w with _ | ⟨c, w⟩
  · exact absurd rfl filled
  rcases next : spelled xs ++ r with _ | ⟨d, z⟩
  · simp [next] at solid
  have blank : isBlank d = false := by simpa [next] using solid
  have apart : NoBreak (c :: w) (d :: z) := by
    rintro - head
    obtain rfl : d = '\n' := by simpa using head
    exact absurd blank (by decide)
  have stop : spaces (d :: z) = ⟨[], d :: z⟩ := spaces_of_solid blank z
  refine rest.cons {} ?_ rfl
  rw [next, step_space (gap c (by simp)).1 (going_of_gap gap apart), spaces_gap gap.tail apart.tail, stop]
  simp [Split.prepend]
  rfl

theorem mark {c : Char} (opens : c = '(' ∨ c = '\x7b' ∨ c = ',') : Reads ((.punctuation, [c]) :: xs) r := by
  refine rest.cons {} ?_ rfl
  rcases opens with rfl | rfl | rfl <;> rfl

theorem close {c : Char} (closes : c = ')' ∨ c = '\x7d') (quote : (spelled xs ++ r).head? ≠ some '\'') :
    Reads ((.punctuation, [c]) :: xs) r := by
  refine rest.cons (LexState.operand {}) ?_ (lexemes_operand quote)
  rcases closes with rfl | rfl <;> rfl

theorem sign {c : Char} (sign : c = '+' ∨ c = '-' ∨ c = ':') : Reads ((.operator, [c]) :: xs) r := by
  have single (z : List Char) : optional none z = ⟨[], z⟩ := by cases z <;> simp [optional]
  refine rest.cons {} ?_ rfl
  generalize spelled xs ++ r = z
  rcases sign with rfl | rfl | rfl
  all_goals
    refine Eq.trans ?_ (congrArg (LexStep.mk .operator · {}) (single z))
    rfl

theorem equals (other : (spelled xs ++ r).head? ≠ some '=') : Reads ((.operator, ['=']) :: xs) r := by
  refine rest.cons {} ?_ rfl
  have single : optional (some '=') (spelled xs ++ r) = ⟨[], spelled xs ++ r⟩ := by
    generalize spelled xs ++ r = z at other
    rcases z with _ | ⟨d, z⟩
    · rfl
    · have away : some '=' ≠ some d := by simpa [eq_comm] using other
      rw [optional, if_neg away]
  refine Eq.trans ?_ (congrArg (LexStep.mk .operator · {}) single)
  rfl

theorem word {w : List Char} (word : isIdentifierChars w = true) (free : isReserved (String.ofList w) = false)
    (stop : (spelled xs ++ r).head?.any isIdentRest = false) (quote : (spelled xs ++ r).head? ≠ some '\'') :
    Reads ((.name, w) :: xs) r := by
  rcases w with _ | ⟨c, cs⟩
  · simp [isIdentifierChars] at word
  · exact rest.cons _ (step_word rfl (.inl rfl) rfl word free stop) (lexemes_operand quote)

theorem field {w : List Char} (word : isIdentifierChars w = true)
    (stop : (spelled xs ++ r).head?.any isIdentRest = false) (quote : (spelled xs ++ r).head? ≠ some '\'') :
    Reads ((.punctuation, ['.']) :: (.name, w) :: xs) r := by
  rcases w with _ | ⟨c, cs⟩
  · simp [isIdentifierChars] at word
  have letter : isIdentStart c = true := by
    rw [isIdentifierChars, Bool.and_eq_true] at word
    exact word.1
  have free (z : List Char) : takesPoint (c :: z) = false := by
    have other {d : Char} (symbol : isIdentRest d = false) : c ≠ d :=
      ne_of_isIdentRest (isIdentRest_of_isIdentStart c letter) symbol
    simp [takesPoint, other (d := '*') (by decide), other (d := '/') (by decide),
      other (d := '\\') (by decide), other (d := '^') (by decide), other (d := '\'') (by decide),
      other (d := '.') (by decide)]
  have point (z : List Char) : step {} '.' (c :: z) =
      ⟨.punctuation, ⟨[], c :: z⟩, { LexState.operand {} with afterDot := true }⟩ := by
    rw [step_point, dot_punctuation (free z) (by simpa using not_isDigit_of_isIdentStart letter)]
  rw [Reads]
  simp only [spelled_cons, List.cons_append, List.nil_append, List.append_assoc]
  rw [lexemes_of_step (point _), lexemes_of_step (step_field rfl word stop)]
  rw [show LexState.operand { LexState.operand {} with afterDot := true } = LexState.operand {} from rfl,
    lexemes_operand quote, rest]

theorem number {ds : List Char} (number : Numeral.isNonemptyDigits ds = true)
    (ends : (spelled xs ++ r).head?.any endsItem = true) : Reads ((.number, ds) :: xs) r := by
  rcases ds with _ | ⟨c, ds⟩
  · simp [Numeral.isNonemptyDigits] at number
  have all : (c :: ds).all Char.isDigit = true := by simpa [Numeral.isNonemptyDigits] using number
  rcases next : spelled xs ++ r with _ | ⟨d, z⟩
  · simp [next] at ends
  have ends : endsItem d = true := by simpa [next] using ends
  have digit : c.isDigit = true := by
    rw [List.all_cons, Bool.and_eq_true] at all
    exact all.1
  refine rest.cons (LexState.operand {}) ?_ (lexemes_operand ?_)
  · rw [next, step_of_digit digit, numberRest_digits all ends]
  · rw [next]
    simpa using ne_of_endsItem ends (by decide)

theorem string {quote : Char} (mark : quote = '\'' ∨ quote = '"') {content : List Char}
    (within : '\n' ∉ content) (ends : (spelled xs ++ r).head?.any endsItem = true) :
    Reads ((.string, quote :: (doubled quote content ++ [quote])) :: xs) r := by
  have other : (spelled xs ++ r).head? ≠ some quote := by
    intro first
    rw [first] at ends
    rcases mark with rfl | rfl <;> revert ends <;> decide
  refine rest.cons {} ?_ rfl
  rw [step_string mark (by simp), List.append_assoc, List.singleton_append, stringBody_doubled mark within other]
  rfl

end Reads

end Lexer

end MatlabOutline
