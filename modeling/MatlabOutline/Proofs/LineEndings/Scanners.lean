import MatlabOutline.Proofs.LineEndings.Rendition
import MatlabOutline.Proofs.Lexing.OneLine
import MatlabOutline.Proofs.Lexing.StableStep

/-!
The scanners within a line are neutral: line bodies, white space, strings, numbers and dotted names. So
are the looks ahead at a block word, a signature and a block comment.
-/

namespace MatlabOutline

namespace Scan

variable {w : Rendition}

/-- What takes nothing at each line end stops there. -/
theorem stops_of_cons {f : List Char → Split} (empty : f [] = ⟨[], []⟩)
    (ended : ∀ c r, atLineEnd (c :: r) = true → f (c :: r) = ⟨[], c :: r⟩) : StopsAtLineEnd f := by
  rintro (_ | ⟨c, r⟩) h
  · exact empty
  · exact ended c r (by simpa using h)

theorem stops_lineBody : StopsAtLineEnd lineBody :=
  stops_of_cons rfl fun c r ended => by rw [lineBody_cons, if_pos ended]

/-- The body of a line ends where the line does, before a carriage return that belongs to its end. -/
theorem neutral_lineBody : Neutral lineBody := by
  intro w r plain
  induction r with
  | nil => exact stops_lineBody.nil w
  | cons c r ih =>
    rw [List.mem_cons, not_or] at plain
    by_cases line : c = '\n'
    · rw [line]
      exact stops_lineBody.line w r
    · have going := atLineEnd_of_other line (Ne.symm plain.1)
      refine .push line ?_ ?_ (ih plain.2) <;> rw [lineBody_cons, going, if_neg (by simp)]

theorem stops_spaces : StopsAtLineEnd spaces :=
  stops_of_cons rfl fun c r ended => by rw [spaces_cons, if_pos ended]

/-- White space ends at the line end, although a carriage return is blank. -/
theorem neutral_spaces : Neutral spaces := by
  intro w r plain
  induction r with
  | nil => exact stops_spaces.nil w
  | cons c r ih =>
    rw [List.mem_cons, not_or] at plain
    by_cases line : c = '\n'
    · rw [line]
      exact stops_spaces.line w r
    · have going := atLineEnd_of_other line (Ne.symm plain.1)
      by_cases blank : isBlank c = true
      · refine .push line ?_ ?_ (ih plain.2) <;>
          rw [spaces_cons, going, if_neg (by simp), if_pos blank]
      · have here (s : List Char) : spaces (c :: s) = ⟨[], c :: s⟩ := by
          rw [spaces_cons, going, if_neg (by simp), if_neg blank]
        exact .stop (here r) (by rw [w.text_cons line, here])

theorem stops_stringBody (quote : Char) : StopsAtLineEnd (stringBody quote) :=
  stops_of_cons (by simp [stringBody]) fun c r ended => by rw [stringBody_cons, if_pos ended]

/-- Whether a quote is doubled does not depend on line ends. -/
theorem neutralAt_secondQuote {quote : Char} (line : quote ≠ '\n') (carriage : quote ≠ '\r')
    {r : List Char} (rest : NeutralAt w (stringBody quote) r.tail) : NeutralAt w (secondQuote quote) r := by
  have front := w.head?_text_beq line carriage r
  by_cases doubled : r.head? = some quote
  · rcases r with _ | ⟨d, r⟩
    · simp at doubled
    obtain rfl : d = quote := by simpa using doubled
    exact .push line (by simp [secondQuote]) (by simp [secondQuote]) rest
  · have there : (w.text r).head? ≠ some quote := by
      rw [beq_false_of_ne doubled] at front
      exact beq_eq_false_iff_ne.mp front
    exact .stop (by simp [secondQuote, doubled]) (by simp [secondQuote, there])

/-- A string that is not closed ends with its line. -/
theorem neutral_stringBody {quote : Char} (lineQuote : quote ≠ '\n') (carriageQuote : quote ≠ '\r') :
    Neutral (stringBody quote) := by
  intro w r plain
  -- A doubled quote takes two characters at once, so the induction is on the length.
  induction length : r.length using Nat.strongRecOn generalizing r with
  | ind n ih =>
  rcases r with _ | ⟨c, r⟩
  · exact (stops_stringBody quote).nil w
  rw [List.mem_cons, not_or] at plain
  by_cases line : c = '\n'
  · rw [line]
    exact (stops_stringBody quote).line w r
  have going := atLineEnd_of_other line (Ne.symm plain.1)
  by_cases first : c = quote
  · subst first
    have shorter : r.tail.length < n := by
      rw [← length, List.length_cons, List.length_tail]
      omega
    have within : '\r' ∉ r.tail := fun member => plain.2 (List.mem_of_mem_tail member)
    have rest := neutralAt_secondQuote line (Ne.symm plain.1) (ih _ shorter _ within rfl)
    exact .push line (stringBody_quote (going r)) (stringBody_quote (going _)) rest
  · have rest := ih r.length (by simp [← length]) r plain.2 rfl
    refine .push line ?_ ?_ rest <;> rw [stringBody_cons, going, if_neg (by simp), if_neg first]

section Words

variable {p : Char → Bool} (feed : p '\n' = false) (carriage : p '\r' = false)

include feed carriage

theorem stops_run : StopsAtLineEnd (run p) := by
  refine stops_of_cons rfl fun c r ended => ?_
  have other : p c = false := by
    rcases atLineEnd_cons_iff.mp ended with rfl | ⟨rfl, _⟩
    · exact feed
    · exact carriage
  simp [run, other]

/-- A run of characters that no line end has stops at each of them. -/
theorem neutral_run : Neutral (run p) := by
  intro w r plain
  induction r with
  | nil => exact (stops_run feed carriage).nil w
  | cons c r ih =>
    rw [List.mem_cons, not_or] at plain
    by_cases line : c = '\n'
    · rw [line]
      exact (stops_run feed carriage).line w r
    · by_cases member : p c = true
      · refine .push line ?_ ?_ (ih plain.2) <;> simp [run, member, Split.push]
      · refine .stop (by simp [run, member]) ?_
        rw [w.text_cons line]
        simp [run, member]

end Words

theorem neutral_ident : Neutral (run isIdentRest) :=
  neutral_run (by decide) (by decide)

theorem neutral_digits : Neutral digits :=
  neutral_run (by decide) (by decide)

/-- An imaginary unit is looked for behind a number, and what follows it is looked at. -/
theorem neutral_imaginary : Neutral imaginary := by
  have stops : StopsAtLineEnd imaginary := by
    refine stops_of_cons rfl fun c r ended => ?_
    rcases atLineEnd_cons_iff.mp ended with rfl | ⟨rfl, _⟩ <;> simp [imaginary]
  refine stops.neutral fun w c r line _ _ => ?_
  have longer := w.head?_text_any (p := isIdentRest) (by decide) (by decide) r
  by_cases mark : ((c == 'i' || c == 'j') && !(r.head?.any isIdentRest)) = true
  · refine .push (g := fun r => ⟨[], r⟩) line ?_ ?_ rfl
    · rw [imaginary, if_pos mark]
      rfl
    · rw [imaginary, longer, if_pos mark]
      rfl
  · refine .stop (by rw [imaginary, if_neg mark]) ?_
    rw [w.text_cons line, imaginary, longer, if_neg mark]

/-- The look ahead behind a point sees the same character, or a line end. -/
theorem takesPoint_text (r : List Char) : takesPoint (w.text r) = takesPoint r := by
  rcases r with _ | ⟨c, r⟩
  · rcases w with ⟨_ | _, _ | _⟩ <;> rfl
  · by_cases line : c = '\n'
    · rw [line, w.text_line]
      cases w.ending <;> simp [LineEnding.chars, takesPoint]
    · rw [w.text_cons line, takesPoint, takesPoint, w.head?_text_beq (by decide) (by decide)]

/-- A fraction is neutral, and so is a point that belongs to an operator. -/
theorem neutral_fraction : Neutral fraction := by
  have stops : StopsAtLineEnd fraction := by
    refine stops_of_cons rfl fun c r ended => fraction_of_head ?_
    rcases atLineEnd_cons_iff.mp ended with rfl | ⟨rfl, _⟩ <;> simp
  refine stops.neutral fun w c r line _ plain => ?_
  by_cases point : c = '.'
  · subst point
    by_cases taken : takesPoint r = true
    · refine .stop (by rw [fraction_point, if_pos taken]) ?_
      rw [w.text_cons line, fraction_point, takesPoint_text, if_pos taken]
    · refine .push line ?_ ?_ (neutral_digits w r plain)
      · rw [fraction_point, if_neg taken]
      · rw [fraction_point, takesPoint_text, if_neg taken]
  · refine .stop (fraction_of_head (by simpa using point)) ?_
    rw [w.text_cons line]
    exact fraction_of_head (by simpa using point)

/-- The look ahead behind the mark of an exponent sees the same characters. -/
theorem lacksExponent_text (r : List Char) : lacksExponent (w.text r) = lacksExponent r := by
  rcases r with _ | ⟨c, r⟩
  · rcases w with ⟨_ | _, _ | _⟩ <;> rfl
  · by_cases line : c = '\n'
    · rw [line, w.text_line]
      cases w.ending <;> simp [LineEnding.chars, lacksExponent]
    · rw [w.text_cons line, lacksExponent, lacksExponent, w.head?_text_any (by decide) (by decide)]

/-- An exponent may have a sign, which is taken with the digits only. -/
theorem neutral_exponent : Neutral exponent := by
  have stops : StopsAtLineEnd exponent := by
    refine stops_of_cons rfl fun c r ended => exponent_of_not_mark ?_ r
    rcases atLineEnd_cons_iff.mp ended with rfl | ⟨rfl, _⟩ <;> rfl
  refine stops.neutral fun w c r line _ plain => ?_
  by_cases mark : isExponentMark c = true
  · by_cases lacks : lacksExponent r = true
    · refine .stop (exponent_of_lacks lacks) ?_
      rw [w.text_cons line]
      exact exponent_of_lacks (by rw [lacksExponent_text, lacks])
    · rcases r with _ | ⟨d, r⟩
      · simp [lacksExponent] at lacks
      rw [List.mem_cons, not_or] at plain
      by_cases digit : d.isDigit = true
      · have inner : d ≠ '\n' := by
          rintro rfl
          simp at digit
        have whole : '\r' ∉ d :: r := by simp [plain.1, plain.2]
        refine .push line (by simp [exponent, mark, digit]) ?_ (neutral_digits w (d :: r) whole)
        rw [w.text_cons inner]
        simp [exponent, mark, digit]
      · have signed : (d == '+' || d == '-') = true ∧ r.head?.any Char.isDigit = true := by
          simpa [lacksExponent, digit, Decidable.or_iff_not_imp_left] using lacks
        have inner : d ≠ '\n' := by
          rintro rfl
          simp at signed
        have here (s : List Char) (front : s.head?.any Char.isDigit = true) :
            exponent (c :: d :: s) = ((digits s).push d).push c := by
          simp [exponent, mark, digit, signed.1, front]
        have sign : NeutralAt w (fun s => (digits s.tail).push d) (d :: r) :=
          .push inner rfl rfl (neutral_digits w r plain.2)
        refine .push line (here r signed.2) ?_ sign
        rw [w.text_cons inner]
        exact here _ (by rw [w.head?_text_any (by decide) (by decide), signed.2])
  · rw [Bool.not_eq_true] at mark
    refine .stop (exponent_of_not_mark mark r) ?_
    rw [w.text_cons line]
    exact exponent_of_not_mark mark _

/-- The look ahead behind a leading zero sees the same characters. -/
theorem startsHex_text (r : List Char) : startsHex (w.text r) = startsHex r := by
  have cases (x : Char) (r : List Char) :
      startsHex (x :: r) = ((x == 'x' || x == 'X') && r.head?.any isHexDigit) := by
    rcases r with _ | ⟨d, r⟩ <;> simp [startsHex]
  rcases r with _ | ⟨c, r⟩
  · rcases w with ⟨_ | _, _ | _⟩ <;> rfl
  · by_cases line : c = '\n'
    · rw [line, w.text_line]
      cases w.ending <;> simp [LineEnding.chars, cases]
    · rw [w.text_cons line, cases, cases, w.head?_text_any (by decide) (by decide)]

theorem neutral_hexRest : Neutral fun r => (run isHexDigit r).andThen imaginary :=
  (neutral_run (by decide) (by decide)).andThen neutral_imaginary (run_whole _)

theorem neutral_pointRest : Neutral fun r => ((digits r).andThen exponent).andThen imaginary :=
  (neutral_digits.andThen neutral_exponent digits_whole).andThen neutral_imaginary
    fun r => (Split.whole_andThen _ _ exponent_whole).trans (digits_whole r)

theorem neutral_decimalRest :
    Neutral fun r => (((digits r).andThen fraction).andThen exponent).andThen imaginary := by
  have whole (r : List Char) : ((digits r).andThen fraction).whole = r :=
    (Split.whole_andThen _ _ fraction_whole).trans (digits_whole r)
  exact ((neutral_digits.andThen neutral_fraction digits_whole).andThen neutral_exponent whole).andThen
    neutral_imaginary fun r => (Split.whole_andThen _ _ exponent_whole).trans (whole r)

/-- A number in any of its forms is neutral. -/
theorem neutral_numberRest (first : Char) : Neutral (numberRest first) := by
  intro w r plain
  have same : (first == '0' && startsHex (w.text r)) = (first == '0' && startsHex r) := by
    rw [startsHex_text]
  by_cases hex : (first == '0' && startsHex r) = true
  · rcases r with _ | ⟨x, r⟩
    · simp [startsHex] at hex
    rw [List.mem_cons, not_or] at plain
    have line : x ≠ '\n' := by
      rintro rfl
      rcases r with _ | ⟨d, r⟩ <;> simp [startsHex] at hex
    refine .push line (by simp only [numberRest, hex, if_true]) ?_ (neutral_hexRest w r plain.2)
    rw [hex, w.text_cons line] at same
    simp only [numberRest, same, if_true]
  · have there := hex
    rw [← same] at there
    by_cases point : (first == '.') = true
    · refine (neutral_pointRest w r plain).congr ?_ ?_
      · rw [numberRest.eq_def, if_neg hex, if_pos point]
      · rw [numberRest.eq_def, if_neg there, if_pos point]
    · refine (neutral_decimalRest w r plain).congr ?_ ?_
      · rw [numberRest.eq_def, if_neg hex, if_neg point]
      · rw [numberRest.eq_def, if_neg there, if_neg point]

/-- The look ahead behind a name sees the same point and letter. -/
theorem startsPart_text (r : List Char) : startsPart (w.text r) = startsPart r := by
  rcases r with _ | ⟨c, r⟩
  · rcases w with ⟨_ | _, _ | _⟩ <;> rfl
  · by_cases line : c = '\n'
    · rw [line, w.text_line]
      cases w.ending <;> simp [LineEnding.chars, startsPart]
    · have next := w.head?_text_any (p := isIdentStart) (by decide) (by decide) r
      rw [w.text_cons line, startsPart, startsPart, List.tail_cons, List.tail_cons, next]
      rfl

/-- A dotted name is neutral: its parts are runs, and no line ends between them. -/
theorem neutral_dottedRest : Neutral dottedRest := by
  intro w r plain
  induction length : r.length using Nat.strongRecOn generalizing r with
  | ind n ih =>
  by_cases part : startsPart r = true
  · rcases r with _ | ⟨c, r⟩
    · simp [startsPart] at part
    obtain rfl : c = '.' := by simp_all [startsPart]
    have line : '.' ≠ '\n' := by decide
    have there := startsPart_text (w := w) ('.' :: r)
    rw [List.mem_cons, not_or] at plain
    rw [part, w.text_cons line] at there
    have bound := Split.length_rest_le (run_whole isIdentRest r)
    have within := Split.not_mem_rest (run_whole isIdentRest r) plain.2
    have further := ih (run isIdentRest r).rest.length (by simp [← length]; omega) _ within rfl
    have rest := (neutral_ident w r plain.2).andThen further
    exact .push line (dottedRest_part part) (dottedRest_part there) rest
  · rw [Bool.not_eq_true] at part
    exact .stop (dottedRest_stop part) (dottedRest_stop (by rw [startsPart_text, part]))

/-- A single `=` is told from `==` in both forms. -/
theorem startsAssignment_text (r : List Char) :
    startsAssignment (w.text r) = startsAssignment r := by
  rcases r with _ | ⟨c, r⟩
  · rcases w with ⟨_ | _, _ | _⟩ <;> rfl
  · by_cases line : c = '\n'
    · rw [line, w.text_line]
      cases w.ending <;> simp [LineEnding.chars, startsAssignment]
    · rw [w.text_cons line, startsAssignment, startsAssignment, List.tail_cons, List.tail_cons, bne, bne,
        w.head?_text_beq (by decide) (by decide)]
      rfl

/-- Whether a word opens a block depends on what follows on its line. -/
theorem endsBlockWord_text {r : List Char} (plain : '\r' ∉ r) :
    endsBlockWord (w.text r) = endsBlockWord r := by
  have gap : (spaces (w.text r)).rest = w.text (spaces r).rest :=
    congrArg Split.rest (neutral_spaces w r plain)
  rw [endsBlockWord_eq, endsBlockWord_eq, gap, startsAssignment_text,
    w.head?_text_all (by decide) (by decide)]

/-- The scan for `=` ends with the line in both forms. -/
theorem signatureHasOutputs_text (depth : Nat) (r : List Char) :
    signatureHasOutputs depth (w.text r) = signatureHasOutputs depth r := by
  have ended (depth : Nat) (s : List Char) : signatureHasOutputs depth (w.ending.chars ++ s) = false := by
    cases w.ending <;> simp [LineEnding.chars, signatureHasOutputs]
  induction r generalizing depth with
  | nil =>
    rcases w with ⟨ending, _ | _⟩
    · rfl
    · simpa [Rendition.tail, signatureHasOutputs] using ended depth []
  | cons c r ih =>
    by_cases line : c = '\n'
    · rw [line, w.text_line, ended]
      simp [signatureHasOutputs]
    · have dot := w.head?_text_beq (d := '.') (by decide) (by decide) r
      have mark := w.head?_text_beq (d := '=') (by decide) (by decide) r
      simp only [w.text_cons line, signatureHasOutputs, bne, dot, mark, ih]

/-- Nothing that is taken within a line changes with the way in which lines end. -/
theorem taken_lineBody (w : Rendition) (r : List Char) :
    w.ending.write (lineBody r).taken = (lineBody r).taken :=
  w.ending.write_of_not_mem (feed_not_mem_lineBody r)

/-- A block comment opens if nothing but white space follows on its line. -/
theorem opensBlockComment_text {r : List Char} (plain : '\r' ∉ r) :
    opensBlockComment (w.text r) = opensBlockComment r := by
  have line : (lineBody (w.text r)).taken = (lineBody r).taken := by
    rw [neutral_lineBody w r plain]
    exact taken_lineBody w r
  rw [opensBlockComment_eq, opensBlockComment_eq, line]

end Scan

end MatlabOutline
