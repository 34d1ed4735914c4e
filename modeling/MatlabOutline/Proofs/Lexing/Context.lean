import MatlabOutline.Proofs.Lexing.LineEnds
import MatlabOutline.Proofs.Lexing.Rereading

/-!
What the lexemes before it say of a lexeme. A quote right behind an operand stands alone
(`Lexer.isChain_quotes`), and a comment over lines comes first in its line
(`Lexer.isChain_blocks`). Both are said of the texts of the lexemes only, so that they can be carried
over to other lexemes with the same texts at the same places.
-/

namespace MatlabOutline

namespace Lexer

open Scan

section Chains

variable {P : List Char → List Char → Prop} {n : Nat} {xs : List (TokenKind × List Char)}

/-- What holds of neighbours holds of lexemes of which one begins where the other ends. -/
theorem isChain_spans (filled : ∀ x ∈ xs, x.2 ≠ [])
    (chain : xs.IsChain fun x y => x.1 ≠ .whitespace → y.1 ≠ .whitespace → P x.2 y.2) :
    (spans n xs).IsChain fun a b => b.1 = a.1 + a.2.length → P a.2 b.2 := by
  induction xs generalizing n with
  | nil => simp [spans]
  | cons x xs ih =>
    rw [List.forall_mem_cons] at filled
    have further := ih (n := n + x.2.length) filled.2 chain.tail
    by_cases space : x.1 = .whitespace
    · rwa [spans_space space]
    · rw [spans_solid space]
      apply further.cons
      intro b first next
      rcases xs with _ | ⟨y, xs⟩
      · simp [spans] at first
      by_cases gap : y.1 = .whitespace
      · -- White space between the two would move the second.
        rw [spans_space gap] at first
        have bound := le_of_mem_spans (List.mem_of_mem_head? first)
        have long := List.length_pos_iff.mpr (filled.2 y List.mem_cons_self)
        simp only at next
        omega
      · rw [spans_solid gap] at first
        obtain rfl : (n + x.2.length, y.2) = b := by simpa using first
        exact (List.isChain_cons_cons.mp chain).1 space gap

theorem isChain_of_spans
    (chain : (spans n xs).IsChain fun a b => b.1 = a.1 + a.2.length → P a.2 b.2) :
    xs.IsChain fun x y => x.1 ≠ .whitespace → y.1 ≠ .whitespace → P x.2 y.2 := by
  induction xs generalizing n with
  | nil => exact .nil
  | cons x xs ih =>
    by_cases space : x.1 = .whitespace
    · rw [spans_space space] at chain
      exact (ih chain).cons fun y _ solid => absurd space solid
    · rw [spans_solid space] at chain
      apply (ih chain.tail).cons
      intro y first _ solid
      rcases xs with _ | ⟨z, xs⟩
      · simp at first
      · obtain rfl : z = y := by simpa using first
        rw [spans_solid solid] at chain
        exact (List.isChain_cons_cons.mp chain).1 rfl

end Chains

/-- The text of a lexeme that ends an operand. -/
def endsOperand : List Char → Bool
  | [] => false
  | c :: r => isIdentStart c || c.isDigit || c == '.' && r.head?.any Char.isDigit ||
    [[')'], [']'], ['\x7d'], ['.'], ['\''], ['.', '\'']].contains (c :: r)

section Operand

variable {st : LexState} {c : Char} {r : List Char}

theorem letter_of_word (word : (step st c r).kind ∈ [.name, .nameFunction, .keyword]) :
    isIdentStart c = true := by
  by_cases point : c = '.'
  · subst point
    have kinds := kind_dot st r
    rw [step_point] at word
    cases kind : (dot st r).kind <;> simp_all
  fun_cases step st c r
  case case10 start => exact start
  all_goals simp_all [step, operator]

theorem digit_of_number (number : (step st c r).kind = .number) :
    (c.isDigit || c == '.' && (step st c r).split.taken.head?.any Char.isDigit) = true := by
  by_cases point : c = '.'
  · subst point
    rw [step_point] at number ⊢
    cases digit : r.head?.any Char.isDigit with
    | true =>
      rw [dot_number digit]
      simp [head_numberRest digit]
    | false =>
      exfalso
      revert number
      fun_cases dot st r <;> simp_all
  · fun_cases step st c r
    case case9 digit => simp [digit]
    case case10 =>
      have kinds := kind_word st c r
      simp_all [step]
    all_goals simp_all [step, operator]

theorem endsOperand_of_isOperand
    (operand : isOperand ((step st c r).kind, c :: (step st c r).split.taken) = true) :
    endsOperand (c :: (step st c r).split.taken) = true := by
  have letter (word : (step st c r).kind ∈ [.name, .nameFunction, .keyword]) :
      endsOperand (c :: (step st c r).split.taken) = true := by
    simp [endsOperand, letter_of_word word]
  cases kind : (step st c r).kind with
  | name => exact letter (by simp [kind])
  | nameFunction => exact letter (by simp [kind])
  | keyword => exact letter (by simp [kind])
  | number =>
    have digit := digit_of_number kind
    simp only [endsOperand, Bool.or_eq_true] at digit ⊢
    tauto
  | punctuation =>
    simp only [kind, isOperand] at operand
    simp only [endsOperand, Bool.or_eq_true]
    right
    simp at operand ⊢
    tauto
  | operator =>
    simp only [kind, isOperand] at operand
    simp only [endsOperand, Bool.or_eq_true]
    right
    simp at operand ⊢
    tauto
  | _ => simp [kind, isOperand] at operand

/-- A quote behind such a text follows an operand. -/
theorem afterOperand_of_text (operand : endsOperand (c :: (step st c r).split.taken) = true)
    (quote : (step st c r).split.rest.head? = some '\'') : (step st c r).next.afterOperand = true := by
  have whole := step_whole st c r
  simp only [endsOperand, Bool.or_eq_true, Bool.and_eq_true, beq_iff_eq, List.contains_iff_mem] at operand
  rcases operand with ((letter | digit) | ⟨rfl, digit⟩) | symbol
  · rw [step_of_letter letter]
    fun_cases word st c r <;> rfl
  · rw [step_of_digit digit]
    rfl
  · have first : r.head?.any Char.isDigit = true := by
      rcases taken : (step st '.' r).split.taken with _ | ⟨d, s⟩
      · simp [taken] at digit
      · rw [← whole, Split.whole, taken]
        simpa [taken] using digit
    rw [step_point, dot_number first]
    rfl
  · simp only [List.mem_cons, List.cons.injEq, List.not_mem_nil, or_false] at symbol
    rcases symbol with ⟨rfl, _⟩ | ⟨rfl, _⟩ | ⟨rfl, _⟩ | ⟨rfl, alone⟩ | ⟨rfl, alone⟩ | ⟨rfl, mark⟩
    · rfl
    · rfl
    · rfl
    · rw [step_point] at alone ⊢
      rw [dot_of_alone alone]
      rfl
    · cases after : st.afterOperand with
      | true =>
        rw [step_transpose after]
        rfl
      | false =>
        -- A string goes on behind a second quote.
        rw [step_string (.inl rfl) (by simp [after])] at alone quote whole
        have ended := atBreak_of_taken_nil alone
        rw [Split.whole, alone, List.nil_append] at whole
        rw [whole] at quote
        rcases r with _ | ⟨d, r⟩
        · simp at quote
        · obtain rfl : d = '\'' := by simpa using quote
          simp [atBreak, atLineEnd] at ended
    · rw [Split.whole, mark, List.singleton_append] at whole
      rw [← whole, step_point, dot_symbol (by decide)]
      rfl

/-- A quote that begins the second text right behind an operand is all of it. -/
def QuoteAlone (u v : List Char) : Prop :=
  endsOperand u = true → v.head? = some '\'' → v = ['\'']

/-- A quote right behind an operand stands alone. -/
theorem isChain_quotes (st : LexState) (cs : List Char) :
    (lexemes st cs).IsChain fun x y => QuoteAlone x.2 y.2 := by
  fun_induction lexemes st cs with
  | case1 => exact .nil
  | case2 st c r s ih =>
    apply ih.cons
    intro y first operand quote
    rcases rest : s.split.rest with _ | ⟨d, t⟩
    · simp [rest, lexemes] at first
    rw [rest, lexemes, List.head?_cons, Option.mem_some_iff] at first
    obtain rfl : d = '\'' := by simpa [← first] using quote
    have after := afterOperand_of_text operand (by rw [show (step st c r).split.rest = _ from rest]; rfl)
    rw [← first, step_transpose after]

end Operand

section Blocks

theorem lineStart_dot (st : LexState) (r : List Char) : (dot st r).next.lineStart = false := by
  fun_cases dot st r <;> rfl

theorem lineStart_word (st : LexState) (c : Char) (r : List Char) :
    (word st c r).next.lineStart = false := by
  fun_cases word st c r <;> rfl

/-- A line begins behind a line end, and white space keeps it. -/
theorem newline_of_lineStart {st : LexState} {c : Char} {r : List Char}
    (solid : (step st c r).kind ≠ .whitespace) (start : (step st c r).next.lineStart = true) :
    (step st c r).kind = .newline := by
  fun_cases step st c r
  all_goals
    simp_all [step, lineStart_dot, lineStart_word, operator, LexState.plain, LexState.operand]

theorem lineStart_of_block {st : LexState} {r : List Char}
    (feed : '\n' ∈ (step st '%' r).split.taken) : st.lineStart = true := by
  rw [step_remark, comment] at feed
  split at feed
  · next block =>
    rw [Bool.and_eq_true] at block
    exact block.1
  · exact absurd feed (feed_not_mem_lineBody r)

/-- The two ways to end a line. -/
def isLineEnd (u : List Char) : Bool :=
  u == ['\n'] || u == ['\r', '\n']

theorem isLineEnd_of_newline {st : LexState} {c : Char} {r : List Char}
    (newline : (step st c r).kind = .newline) :
    isLineEnd (c :: (step st c r).split.taken) = true := by
  rcases newline_cases newline with rfl | ⟨rfl, head⟩
  · rfl
  · simp [step, head, isLineEnd]

theorem newline_of_isLineEnd {st : LexState} {c : Char} {r : List Char}
    (solid : (step st c r).kind ≠ .whitespace)
    (ending : isLineEnd (c :: (step st c r).split.taken) = true) : (step st c r).kind = .newline := by
  have blank : isBlank c = true := by
    simp only [isLineEnd, Bool.or_eq_true, beq_iff_eq, List.cons.injEq] at ending
    rcases ending with ⟨rfl, _⟩ | ⟨rfl, _⟩ <;> decide
  cases ended : atLineEnd (c :: r) with
  | true =>
    rcases atLineEnd_cons_iff.mp ended with rfl | ⟨rfl, s, rfl⟩ <;> rfl
  | false => simp [step_space blank ended] at solid

/-- A comment over lines comes behind a line end. -/
def BlockBegins (u v : List Char) : Prop :=
  v.head? = some '%' → '\n' ∈ v → isLineEnd u = true

/-- A comment over lines comes first in its line. -/
theorem isChain_blocks {st : LexState} {cs : List Char} {solid : Option (TokenKind × List Char)}
    (start : st.lineStart = true → ∀ o ∈ solid, isLineEnd o.2 = true) :
    (solid.toList ++ visible (lexemes st cs)).IsChain fun x y => BlockBegins x.2 y.2 := by
  induction st, cs using lexemes.induct generalizing solid with
  | case1 st => cases solid <;> simp [lexemes, visible]
  | case2 st c r s =>
    rename_i ih
    rw [lexemes]
    by_cases blank : (step st c r).kind = .whitespace
    · rw [visible_space blank]
      apply ih
      rw [show s.next = st.blank by simp only [s]; rw [step_of_space blank]]
      exact start
    · rw [visible_solid blank]
      have further := @ih (some ((step st c r).kind, c :: (step st c r).split.taken)) <| by
        intro begun o first
        obtain rfl := Option.mem_some_iff.mp first
        exact isLineEnd_of_newline (newline_of_lineStart blank begun)
      cases solid with
      | none => exact further
      | some o =>
        apply further.cons
        intro y first mark feed
        obtain rfl : _ = y := by simpa using first
        obtain rfl : c = '%' := by simpa using mark
        exact start (lineStart_of_block (by simpa using feed)) o rfl

end Blocks

end Lexer

/-- A token that ends an operand, which a quote right behind it transposes. -/
def Token.isOperand (t : Token) : Bool :=
  Lexer.isOperand t.lexeme

end MatlabOutline
