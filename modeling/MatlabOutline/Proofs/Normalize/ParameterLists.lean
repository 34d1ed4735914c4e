import MatlabOutline.Normalize.Signature
import MatlabOutline.Proofs.Lexing.LineEnds

/-!
Completed signatures lex as expected. Main statement: the tokens of a text with completed signatures
are those of the text, with an empty parameter list behind each declared name that lacked one
(`tokenize_completeSignatures`).
-/

namespace MatlabOutline

open Scan

/-- Whether a parameter list comes next, after optional white space. -/
def takesList (xs : List (TokenKind × List Char)) : Bool :=
  (xs.dropWhile (·.1 == .whitespace)).head? == some (.punctuation, ['('])

/-- The lexemes with an empty parameter list behind each declared name that lacks one. -/
def withLists : List (TokenKind × List Char) → List (TokenKind × List Char)
  | [] => []
  | x :: r =>
    if x.1 == .nameFunction && !takesList r then
      x :: (.punctuation, ['(']) :: (.punctuation, [')']) :: withLists r
    else x :: withLists r

namespace Scan

/-- An `=` in front always tells that there are outputs: the last of a run of them is no comparison. -/
theorem signatureHasOutputs_of_head {r : List Char} (mark : r.head? = some '=') (depth : Nat) :
    signatureHasOutputs depth r = true := by
  induction r with
  | nil => simp at mark
  | cons c r ih =>
    obtain rfl : c = '=' := by simpa using mark
    by_cases again : r.head? = some '='
    · simp [signatureHasOutputs, again, ih again]
    · simp [signatureHasOutputs, again]

theorem signatureHasOutputs_ident {c : Char} (ident : isIdentRest c = true) (depth : Nat)
    (r : List Char) : signatureHasOutputs depth (c :: r) = signatureHasOutputs depth r := by
  have away {d : Char} (other : isIdentRest d = false) : (c == d) = false :=
    beq_false_of_ne (ne_of_isIdentRest ident other)
  simp [signatureHasOutputs, away (d := '\n') (by decide), away (d := '%') (by decide),
    away (d := ';') (by decide), away (d := '.') (by decide), away (d := '[') (by decide),
    away (d := '\x7b') (by decide), away (d := ']') (by decide), away (d := '\x7d') (by decide),
    away (d := '(') (by decide), away (d := '=') (by decide)]

/-- One character of a signature decides alone, with a look at the next one, or it hands the search
on at some depth. -/
theorem signatureHasOutputs_cons (depth : Nat) (c : Char) (next : Option Char) :
    (∃ b, ∀ r, r.head? = next → signatureHasOutputs depth (c :: r) = b) ∨
      ∃ d, ∀ r, r.head? = next → signatureHasOutputs depth (c :: r) = signatureHasOutputs d r := by
  by_cases ends : (c == '\n' || c == '%' || c == ';') = true
  · exact .inl ⟨false, fun r _ => by simp only [signatureHasOutputs, ends, if_true]⟩
  by_cases marker : (c == '.' && next == some '.') = true
  · refine .inl ⟨false, fun r same => ?_⟩
    rw [signatureHasOutputs, if_neg ends, same, if_pos marker]
  by_cases opens : (c == '[' || c == '\x7b') = true
  · refine .inr ⟨depth + 1, fun r same => ?_⟩
    rw [signatureHasOutputs, if_neg ends, same, if_neg marker, if_pos opens]
  by_cases closes : (c == ']' || c == '\x7d') = true
  · refine .inr ⟨depth - 1, fun r same => ?_⟩
    rw [signatureHasOutputs, if_neg ends, same, if_neg marker, if_neg opens, if_pos closes]
  by_cases list : (c == '(' && depth == 0) = true
  · refine .inl ⟨false, fun r same => ?_⟩
    rw [signatureHasOutputs, if_neg ends, same, if_neg marker, if_neg opens, if_neg closes, if_pos list]
  by_cases mark : (c == '=' && next != some '=') = true
  · refine .inl ⟨true, fun r same => ?_⟩
    rw [signatureHasOutputs, if_neg ends, same, if_neg marker, if_neg opens, if_neg closes,
      if_neg list, if_pos mark]
  · refine .inr ⟨depth, fun r same => ?_⟩
    rw [signatureHasOutputs, if_neg ends, same, if_neg marker, if_neg opens, if_neg closes,
      if_neg list, if_neg mark]

/-- The search behaves alike behind a common front if it does behind it. -/
theorem signatureHasOutputs_front {b : Bool} {r r' : List Char} (head : r'.head? = r.head?)
    (alike : ∀ d, signatureHasOutputs d r = b → signatureHasOutputs d r' = b) (p : List Char)
    (depth : Nat) (found : signatureHasOutputs depth (p ++ r) = b) :
    signatureHasOutputs depth (p ++ r') = b := by
  induction p generalizing depth with
  | nil => exact alike depth found
  | cons c p ih =>
    have same : (p ++ r').head? = (p ++ r).head? := by
      cases p with
      | nil => exact head
      | cons d p => rfl
    rcases signatureHasOutputs_cons depth c (p ++ r).head? with ⟨b', decided⟩ | ⟨d, handed⟩
    · have first : b' = b := (decided _ rfl).symm.trans found
      exact (decided _ same).trans first
    · have first := (handed _ rfl).symm.trans found
      exact (handed _ same).trans (ih d first)

/-- Lists behind words can only stop the search for outputs earlier. -/
theorem signatureHasOutputs_padded {r r' : List Char} (padded : Padded r r') (depth : Nat)
    (free : signatureHasOutputs depth r = false) : signatureHasOutputs depth r' = false := by
  induction padded generalizing depth with
  | nil => rfl
  | line => rfl
  | @cons c r r' rest ih => exact signatureHasOutputs_front rest.head?_eq ih [c] depth free
  | @list c r r' ident short rest ih =>
    rw [signatureHasOutputs_ident ident] at free ⊢
    by_cases outer : depth = 0
    · simp [signatureHasOutputs, outer]
    · simpa [signatureHasOutputs, outer] using ih depth free

end Scan

namespace Lexer

theorem letter_of_nameFunction {st : LexState} {c : Char} {r : List Char}
    (declared : (step st c r).kind = .nameFunction) :
    isIdentStart c = true ∧ st.afterDot = false ∧ st.signature = .name := by
  fun_cases step st c r
  case case6 =>
    have kind := kind_dot st r
    simp_all [step]
  case case10 letter =>
    rw [step_of_letter letter] at declared
    refine ⟨letter, ?_⟩
    by_cases field : st.afterDot = true
    · simp [word_field field] at declared
    rw [Bool.not_eq_true] at field
    refine ⟨field, ?_⟩
    cases part : st.signature with
    | name => rfl
    | outputs => simp [word_output field part] at declared
    | none =>
      rw [word_plain field part, wordKind] at declared
      simp only at declared
      split at declared
      · simp at declared
      · split at declared <;> simp at declared
  all_goals simp_all [step, operator]

/-- The text that a step takes when a declared name begins. -/
theorem step_of_nameFunction {st : LexState} {c : Char} {r : List Char}
    (declared : (step st c r).kind = .nameFunction) (s : List Char) :
    step st c s = ⟨.nameFunction, (run isIdentRest s).andThen dottedRest, { afterOperand := true }⟩ := by
  obtain ⟨letter, field, part⟩ := letter_of_nameFunction declared
  rw [step_of_letter letter, word_declared field part]
  rfl

end Lexer

namespace Scan

theorem last_run {p : Char → Bool} {r : List Char} : (run p r).taken.getLast?.all p = true := by
  cases last : (run p r).taken.getLast? with
  | none => rfl
  | some c => exact List.all_eq_true.mp (all_taken_run p r) c (List.mem_of_getLast? last)

/-- The further parts of a dotted name end in a word character, and none follows them. -/
theorem last_dottedRest (r : List Char) : (dottedRest r).taken.getLast?.all isIdentRest = true := by
  fun_induction dottedRest r with
  | case1 c r letter ih =>
    have word : ('.' :: c :: r.takeWhile isIdentRest).getLast?.all isIdentRest = true := by
      have run := last_run (p := isIdentRest) (r := r)
      rw [List.getLast?_cons_cons, List.getLast?_cons]
      simp only [Scan.run] at run
      cases last : (r.takeWhile isIdentRest).getLast? with
      | none => simpa using isIdentRest_of_isIdentStart c letter
      | some d => simpa [last] using run
    rw [Split.prepend, List.getLast?_append]
    cases last : (dottedRest (r.dropWhile isIdentRest)).taken.getLast? with
    | none => simpa [last] using word
    | some d => simpa [last] using ih
  | case2 => rfl
  | case3 => rfl

theorem head_dottedRest {r : List Char} (stop : r.head?.any isIdentRest = false) :
    (dottedRest r).rest.head?.any isIdentRest = false := by
  fun_induction dottedRest r with
  | case1 c r letter ih => exact ih (head_rest_run isIdentRest r)
  | case2 => exact stop
  | case3 => exact stop

theorem head_taken_dottedRest (r : List Char) :
    (dottedRest r).taken.head?.any isIdentRest = false := by
  fun_induction dottedRest r with
  | case1 => rfl
  | case2 => rfl
  | case3 => rfl

theorem dottedRest_before_list (r t : List Char) :
    dottedRest ((dottedRest r).taken ++ '(' :: t) = ⟨(dottedRest r).taken, '(' :: t⟩ := by
  fun_induction dottedRest r with
  | case1 c r letter ih =>
    have word : run isIdentRest
        ((c :: r.takeWhile isIdentRest) ++
          ((dottedRest (r.dropWhile isIdentRest)).taken ++ '(' :: t)) =
        ⟨c :: r.takeWhile isIdentRest,
          (dottedRest (r.dropWhile isIdentRest)).taken ++ '(' :: t⟩ := by
      apply run_of_head
      · simp [isIdentRest_of_isIdentStart c letter]
      · have head := head_taken_dottedRest (r.dropWhile isIdentRest)
        cases taken : (dottedRest (r.dropWhile isIdentRest)).taken with
        | nil => rfl
        | cons d s => simpa [taken] using head
    simp only [Split.prepend, List.append_assoc, List.cons_append] at word ⊢
    rw [dottedRest_part (by simp [startsPart, letter]), word, Split.andThen, ih]
    simp [Split.prepend, Split.push]
  | case2 => exact dottedRest_stop rfl
  | case3 => exact dottedRest_stop rfl

/-- A declared name ends before a list that is put behind it. -/
theorem dottedName_before_list (r t : List Char) :
    (run isIdentRest (((run isIdentRest r).andThen dottedRest).taken ++ '(' :: t)).andThen dottedRest =
      ⟨((run isIdentRest r).andThen dottedRest).taken, '(' :: t⟩ := by
  have word : run isIdentRest ((run isIdentRest r).taken ++
      ((dottedRest (run isIdentRest r).rest).taken ++ '(' :: t)) =
      ⟨(run isIdentRest r).taken, (dottedRest (run isIdentRest r).rest).taken ++ '(' :: t⟩ := by
    apply run_of_head (all_taken_run isIdentRest r)
    have head := head_taken_dottedRest (run isIdentRest r).rest
    cases taken : (dottedRest (run isIdentRest r).rest).taken with
    | nil => rfl
    | cons d s => simpa [taken] using head
  simp only [Split.andThen, Split.prepend, List.append_assoc]
  rw [word, dottedRest_before_list]

end Scan

theorem Padded.list_append {p r r' : List Char} (filled : p ≠ [])
    (ident : p.getLast?.all isIdentRest = true) (short : r.head?.any isIdentRest = false)
    (padded : Padded r r') : Padded (p ++ r) (p ++ '(' :: ')' :: r') := by
  obtain ⟨q, c, rfl⟩ : ∃ q c, p = q ++ [c] :=
    ⟨p.dropLast, p.getLast filled, (List.dropLast_concat_getLast filled).symm⟩
  simp only [List.append_assoc, List.cons_append, List.nil_append]
  exact .append q (.list (by simpa using ident) short padded)

namespace Lexer

/-- A declared name ends in a word character, and none follows it. -/
theorem boundary_of_nameFunction {st : LexState} {c : Char} {r : List Char}
    (declared : (step st c r).kind = .nameFunction) :
    (c :: (step st c r).split.taken).getLast?.all isIdentRest = true ∧
      (step st c r).split.rest.head?.any isIdentRest = false := by
  have letter := (letter_of_nameFunction declared).1
  rw [step_of_nameFunction declared]
  constructor
  · rw [List.getLast?_cons, Split.andThen, Split.prepend, List.getLast?_append]
    have run := last_run (p := isIdentRest) (r := r)
    have parts := last_dottedRest (Scan.run isIdentRest r).rest
    cases last : (dottedRest (Scan.run isIdentRest r).rest).taken.getLast? with
    | some d => simpa [last] using parts
    | none =>
      cases first : (Scan.run isIdentRest r).taken.getLast? with
      | some d => simpa [first] using run
      | none => simpa using isIdentRest_of_isIdentStart c letter
  · exact head_dottedRest (head_rest_run isIdentRest r)

theorem padded_withLists (st : LexState) (cs : List Char) :
    Padded cs (spelled (withLists (lexemes st cs))) := by
  fun_induction lexemes st cs with
  | case1 => exact .nil
  | case2 st c r s ih =>
    have whole : c :: r = (c :: s.split.taken) ++ s.split.rest := by
      rw [List.cons_append]
      exact congrArg _ (step_whole st c r).symm
    rw [whole, withLists]
    split
    · next lacks =>
      have declared : s.kind = .nameFunction := by
        simp only [Bool.and_eq_true, beq_iff_eq] at lacks
        exact lacks.1
      obtain ⟨ident, short⟩ := boundary_of_nameFunction declared
      exact .list_append (by simp) ident short ih
    · exact .append _ ih

theorem signature_dot (st : LexState) (r : List Char) : (dot st r).next.signature = st.signature := by
  fun_cases dot st r <;> rfl

theorem signature_word_of_outputs {st : LexState} (part : st.signature = .outputs) (c : Char)
    (r : List Char) : (word st c r).next.signature = .outputs := by
  by_cases field : st.afterDot = true
  · simpa [word_field field, LexState.operand] using part
  · rw [Bool.not_eq_true] at field
    simpa [word_output field part, LexState.operand] using part

/-- Only an `=` or a line end leaves the outputs of a signature. -/
theorem signature_step_of_outputs {st : LexState} {c : Char} {r : List Char}
    (part : st.signature = .outputs) (mark : c ≠ '=') (going : (step st c r).kind ≠ .newline) :
    (step st c r).next.signature = .outputs := by
  fun_cases step st c r
  case case6 point =>
    rw [signature_dot, part]
  case case10 letter =>
    exact signature_word_of_outputs part c r
  case case13 =>
    simp [operator, mark, part]
  all_goals simp_all [step, LexState.plain, LexState.operand, LexState.blank]

/-- While the outputs of a signature are read no list is put in before its `=`. -/
theorem signatureHasOutputs_withLists {st : LexState} {cs : List Char} (part : st.signature = .outputs)
    (depth : Nat) (found : signatureHasOutputs depth cs = true) :
    signatureHasOutputs depth (spelled (withLists (lexemes st cs))) = true := by
  fun_induction lexemes st cs generalizing depth with
  | case1 => simp [signatureHasOutputs] at found
  | case2 st c r s ih =>
    have whole : s.split.taken ++ s.split.rest = r := step_whole st c r
    by_cases mark : c = '='
    · have all := padded_withLists st (c :: r)
      rw [lexemes] at all
      exact signatureHasOutputs_of_head (by rw [all.head?_eq, mark]; rfl) depth
    by_cases newline : s.kind = .newline
    · rcases newline_cases newline with rfl | ⟨rfl, head⟩
      · simp [signatureHasOutputs] at found
      · rcases r with _ | ⟨d, r⟩
        · simp at head
        · obtain rfl : d = '\n' := by simpa using head
          simp [signatureHasOutputs] at found
    have next := signature_step_of_outputs part mark newline
    have kept : (s.kind == .nameFunction) = false := by
      apply beq_false_of_ne
      intro declared
      have name := (letter_of_nameFunction declared).2.2
      rw [part] at name
      simp at name
    rw [withLists, kept, Bool.false_and, if_neg (by simp), spelled_cons]
    rw [← whole, ← List.cons_append] at found
    exact signatureHasOutputs_front (padded_withLists s.next s.split.rest).head?_eq (ih next)
      (c :: s.split.taken) depth found

/-- A keyword that begins a signature has looked for its outputs. -/
theorem signature_of_keyword {st : LexState} {c : Char} {r : List Char}
    (keyword : (step st c r).kind = .keyword) (begun : (step st c r).next.signature ≠ .none) :
    (step st c r).next.signature =
      if signatureHasOutputs 0 (step st c r).split.rest then .outputs else .name := by
  have letter : isIdentStart c = true := by
    fun_cases step st c r
    case case6 =>
      have kind := kind_dot st r
      simp_all [step]
    case case10 letter => exact letter
    all_goals simp_all [step, operator]
  rw [step_of_letter letter] at keyword begun ⊢
  by_cases field : st.afterDot = true
  · simp [word_field field] at keyword
  rw [Bool.not_eq_true] at field
  cases part : st.signature with
  | name => simp [word_declared field part] at keyword
  | outputs => simp [word_output field part] at keyword
  | none =>
    rw [word_plain field part] at begun ⊢
    simp only [signatureAfter] at begun ⊢
    split
    · rfl
    · next other =>
      rw [if_neg other] at begun
      exact absurd rfl begun

theorem declared_before_list {st : LexState} {c : Char} {r : List Char}
    (declared : (step st c r).kind = .nameFunction) (t : List Char) :
    step st c ((step st c r).split.taken ++ '(' :: t) = (step st c r).withRest ('(' :: t) := by
  rw [step_of_nameFunction declared, step_of_nameFunction declared, dottedName_before_list]
  rfl

/-- An empty list behind an operand leaves the state behind an operand. -/
theorem lexemes_empty_list (t : List Char) :
    lexemes { afterOperand := true } ('(' :: ')' :: t) =
      (.punctuation, ['(']) :: (.punctuation, [')']) :: lexemes { afterOperand := true } t := by
  have opening : step { afterOperand := true } '(' (')' :: t) = ⟨.punctuation, ⟨[], ')' :: t⟩, {}⟩ := rfl
  have closing : step {} ')' t = ⟨.punctuation, ⟨[], t⟩, { afterOperand := true }⟩ := rfl
  rw [lexemes_of_step opening, lexemes_of_step closing]

/-- Lexing a text with its lists put in gives the lexemes with the lists put in. -/
theorem lexemes_withLists (st : LexState) (cs : List Char) :
    lexemes st (spelled (withLists (lexemes st cs))) = withLists (lexemes st cs) := by
  fun_induction lexemes st cs with
  | case1 => simp [withLists, lexemes]
  | case2 st c r s ih =>
    rw [withLists]
    split
    · next lacks =>
      have declared : s.kind = .nameFunction := by
        simp only [Bool.and_eq_true, beq_iff_eq] at lacks
        exact lacks.1
      have next : s.next = { afterOperand := true } := by
        rw [show s = _ from step_of_nameFunction declared r]
      have step := declared_before_list declared
        (')' :: spelled (withLists (lexemes s.next s.split.rest)))
      simp only [spelled_cons, List.cons_append, List.nil_append]
      rw [lexemes, step]
      simp only [LexStep.withRest, List.cons.injEq]
      refine ⟨rfl, ?_⟩
      rw [show (Lexer.step st c r).next = s.next from rfl, next] at ih ⊢
      rw [lexemes_empty_list, ih]
    · next kept =>
      have padded := padded_withLists s.next s.split.rest
      have step := stableAt_step st c r _ padded (by
        intro keyword begun
        have part := signature_of_keyword keyword begun
        cases found : signatureHasOutputs 0 s.split.rest with
        | false => exact signatureHasOutputs_padded padded 0 found
        | true =>
          rw [found] at part
          exact signatureHasOutputs_withLists part 0 found)
      rw [spelled_cons, List.cons_append, lexemes, step]
      simp only [LexStep.withRest, List.cons.injEq]
      exact ⟨rfl, ih⟩

end Lexer

theorem startsParameters_place (line : Nat) (xs : List (TokenKind × List Char)) :
    startsParameters (Token.place line xs) = takesList xs := by
  induction xs generalizing line with
  | nil => rfl
  | cons x xs ih =>
    obtain ⟨kind, cs⟩ := x
    by_cases blank : kind = .whitespace
    · have rest := ih (line + Text.feeds cs)
      simp only [startsParameters, takesList] at rest ⊢
      simp [Token.place, Token.isWhitespace, blank, rest]
    · have mark : (String.ofList cs == "(") = (cs == ['(']) := by
        rw [Bool.eq_iff_iff, beq_iff_eq, beq_iff_eq, ← String.toList_inj]
        simp
      simp [startsParameters, takesList, Token.place, Token.isWhitespace, blank, Token.isPunct,
        Token.is, mark]
      rfl

theorem join_signatureTexts (line : Nat) (xs : List (TokenKind × List Char)) :
    (String.join (signatureTexts (Token.place line xs))).toList = spelled (withLists xs) := by
  induction xs generalizing line with
  | nil => rfl
  | cons x xs ih =>
    simp only [Token.place, signatureTexts, startsParameters_place, withLists]
    split <;> simp [String.join_cons, ih]

/-- The tokens of completed signatures: an empty list is put behind each name that lacked one. -/
theorem tokenize_completeSignatures (code : String) :
    tokenize (completeSignatures code) =
      Token.place 1 (withLists (Lexer.lexemes .initial code.toList)) := by
  rw [tokenize, completeSignatures, tokenize, join_signatureTexts, Lexer.lexemes_withLists]

end MatlabOutline
