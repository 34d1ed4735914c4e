import MatlabOutline.Proofs.Lexing.LineScanners
import MatlabOutline.Proofs.Lexing.Numerals

/-!
What a scanner takes when another text comes behind what it took. A scanner reaches at least as far
as before, but for a number, which can lose its last character to the word or to the operator that
goes on behind it (`Scan.keeps_numberRest`).
-/

namespace MatlabOutline

namespace Scan

/-- Before `y` the scanner takes at least what it took of `r`. -/
def Reaches (f : List Char → Split) (r y : List Char) : Prop :=
  (f r).taken <+: (f ((f r).taken ++ y)).taken

/-- A mark that begins another lexeme before `y`. -/
def Lost (mark : Char) (y : List Char) : Prop :=
  mark = '.' ∧ takesPoint y = true ∨ (mark = 'i' ∨ mark = 'j') ∧ y.head?.any isIdentRest = true

/-- Before `y` the scanner reaches as far as in `r`, or it loses its last character to another
lexeme. -/
def Keeps (f : List Char → Split) (r y : List Char) : Prop :=
  Reaches f r y ∨
    ∃ p mark, Lost mark y ∧ (f r).taken = p ++ [mark] ∧ f ((f r).taken ++ y) = ⟨p, mark :: y⟩

/-- The scanner never takes `d` behind what it took. -/
def Halts (f : List Char → Split) (d : Char) : Prop :=
  ∀ r z, f ((f r).taken ++ d :: z) = ⟨(f r).taken, d :: z⟩

/-- The scanner keeps what it took, and does not take a mark that it would lose. -/
structure Greedy (f : List Char → Split) : Prop where
  keeps : ∀ r y, Keeps f r y
  passes : ∀ mark y, Lost mark y → f (mark :: y) = ⟨[], mark :: y⟩

theorem Greedy.of_reaches {f : List Char → Split} (reaches : ∀ r y, Reaches f r y)
    (passes : ∀ mark y, Lost mark y → f (mark :: y) = ⟨[], mark :: y⟩) : Greedy f :=
  ⟨fun r y => .inl (reaches r y), passes⟩

/-- Two scanners in a row, where the first halts at whatever the second takes. -/
theorem Greedy.andThen {f g : List Char → Split} (first : Greedy f) (second : Greedy g)
    (halts : ∀ r d s, (g r).taken = d :: s → Halts f d) : Greedy fun r => (f r).andThen g := by
  constructor
  · intro r y
    rcases more : (g (f r).rest).taken with _ | ⟨d, s⟩
    · have taken : ((f r).andThen g).taken = (f r).taken := by simp [Split.andThen, Split.prepend, more]
      rcases first.keeps r y with reach | ⟨p, mark, lost, last, split⟩
      · left
        simp only [Reaches, taken]
        exact reach.trans (List.prefix_append _ _)
      · right
        refine ⟨p, mark, lost, by simpa only [taken] using last, ?_⟩
        rw [taken]
        simp only [Split.andThen, split, second.passes mark y lost, Split.prepend, List.append_nil]
    · have taken : ((f r).andThen g).taken = (f r).taken ++ (g (f r).rest).taken := rfl
      have here : f ((f r).taken ++ ((g (f r).rest).taken ++ y)) =
          ⟨(f r).taken, (g (f r).rest).taken ++ y⟩ := by
        rw [more]
        exact halts _ d s more r (s ++ y)
      rcases second.keeps (f r).rest y with reach | ⟨p, mark, lost, last, split⟩
      · left
        simp only [Reaches, List.append_assoc, here, Split.andThen, Split.prepend]
        exact (List.prefix_append_right_inj _).mpr reach
      · right
        refine ⟨(f r).taken ++ p, mark, lost, by simp [taken, last], ?_⟩
        simp only [List.append_assoc, here, Split.andThen, split, Split.prepend]
  · intro mark y lost
    simp [Split.andThen, Split.prepend, first.passes mark y lost, second.passes mark y lost]

theorem Halts.andThen {f g : List Char → Split} {d : Char} (first : Halts f d) (second : Halts g d)
    (halts : ∀ r e s, (g r).taken = e :: s → Halts f e) : Halts (fun r => (f r).andThen g) d := by
  intro r z
  have here : f ((f r).taken ++ ((g (f r).rest).taken ++ d :: z)) =
      ⟨(f r).taken, (g (f r).rest).taken ++ d :: z⟩ := by
    rcases more : (g (f r).rest).taken with _ | ⟨e, s⟩
    · exact first r z
    · exact halts _ e s more r (s ++ d :: z)
  simp only [Split.andThen, Split.prepend, List.append_assoc, here, second (f r).rest z]

theorem run_append (p : Char → Bool) (r y : List Char) :
    run p ((run p r).taken ++ y) = (run p y).prepend (run p r).taken := by
  have all : ∀ c ∈ r.takeWhile p, p c = true := List.all_eq_true.mp (all_taken_run p r)
  simp [run, Split.prepend, List.takeWhile_append_of_pos all, List.dropWhile_append_of_pos all]

theorem reaches_run (p : Char → Bool) (r y : List Char) : Reaches (run p) r y := by
  rw [Reaches, run_append]
  exact List.prefix_append _ _

theorem halts_run {p : Char → Bool} {d : Char} (other : p d = false) : Halts (run p) d :=
  fun r _ => run_of_head (all_taken_run p r) (by simp [other])

theorem Lost.cases {mark : Char} {y : List Char} (lost : Lost mark y) :
    mark = '.' ∨ mark = 'i' ∨ mark = 'j' := by
  rcases lost with ⟨point, _⟩ | ⟨letter, _⟩
  · exact .inl point
  · exact .inr letter

theorem greedy_run {p : Char → Bool} (point : p '.' = false) (first : p 'i' = false)
    (second : p 'j' = false) : Greedy (run p) := by
  refine .of_reaches (reaches_run p) fun mark y lost => ?_
  have other : p mark = false := by
    rcases lost.cases with rfl | rfl | rfl
    · exact point
    · exact first
    · exact second
  simp [run, other]

theorem greedy_digits : Greedy digits :=
  greedy_run (by decide) (by decide) (by decide)

theorem halts_digits {d : Char} (other : d.isDigit = false) : Halts digits d :=
  halts_run other

section Imaginary

theorem imaginary_head {r s : List Char} {d : Char} (taken : (imaginary r).taken = d :: s) :
    d = 'i' ∨ d = 'j' := by
  rcases r with _ | ⟨c, r⟩
  · simp [imaginary] at taken
  · rw [imaginary] at taken
    split at taken
    · next mark =>
      obtain ⟨rfl, -⟩ := List.cons.inj taken
      simp only [Bool.and_eq_true, Bool.or_eq_true, beq_iff_eq] at mark
      exact mark.1
    · simp at taken

theorem greedy_imaginary : Greedy imaginary := by
  constructor
  · intro r y
    rcases taken : (imaginary r).taken with _ | ⟨d, s⟩
    · left
      rw [Reaches, taken]
      exact List.nil_prefix
    · have letter := imaginary_head taken
      have alone : s = [] := by
        rcases r with _ | ⟨c, r⟩
        · simp [imaginary] at taken
        · rw [imaginary] at taken
          split at taken <;> simp_all
      subst alone
      by_cases longer : y.head?.any isIdentRest = true
      · right
        refine ⟨[], d, .inr ⟨letter, longer⟩, taken, ?_⟩
        rw [taken]
        simp [imaginary, longer]
      · left
        rw [Reaches, taken]
        have mark : (d == 'i' || d == 'j') = true := by simpa using letter
        simp [imaginary, mark, longer]
  · rintro mark y (⟨rfl, _⟩ | ⟨_, longer⟩)
    · simp [imaginary]
    · simp [imaginary, longer]

end Imaginary

section Exponent

theorem exponent_head {r s : List Char} {d : Char} (taken : (exponent r).taken = d :: s) :
    isExponentMark d = true := by
  revert taken
  fun_cases exponent r
  case case3 mark _ =>
    intro taken
    rwa [← (List.cons.inj taken).1]
  case case4 mark _ _ =>
    intro taken
    rwa [← (List.cons.inj taken).1]
  all_goals simp

theorem not_isDigit_of_isExponentMark {d : Char} (mark : isExponentMark d = true) :
    d.isDigit = false := by
  have cases : ((d = 'e' ∨ d = 'E') ∨ d = 'd') ∨ d = 'D' := by simpa [isExponentMark] using mark
  rcases cases with ((rfl | rfl) | rfl) | rfl <;> decide

/-- Behind its mark and sign an exponent goes on with digits. -/
theorem exponent_append (r z : List Char) :
    exponent ((exponent r).taken ++ z) =
      if (exponent r).taken = [] then exponent z
      else (digits z).prepend (exponent r).taken := by
  have append (r : List Char) : digits ((digits r).taken ++ z) = (digits z).prepend (digits r).taken :=
    run_append Char.isDigit r z
  fun_cases exponent r
  case case3 c d r mark digit =>
    have head : digits (d :: r) = (digits r).push d := by simp [digits, run, digit, Split.push]
    have further := append (d :: r)
    rw [head] at further ⊢
    simp only [Split.push, List.cons_append] at further ⊢
    rw [exponent, if_pos mark, if_pos digit, further]
    simp [Split.push, Split.prepend]
  case case4 c d r mark digit sign =>
    have starts : ((digits r).taken ++ z).head?.any Char.isDigit = true := by
      simp only [Bool.and_eq_true] at sign
      rcases r with _ | ⟨e, r⟩
      · simp at sign
      · have number : e.isDigit = true := by simpa using sign.2
        simp [digits, run, number]
    have signed : ((d == '+' || d == '-') && ((digits r).taken ++ z).head?.any Char.isDigit) = true := by
      rw [starts, Bool.and_true]
      exact (Bool.and_eq_true_iff.mp sign).1
    simp only [Split.push, List.cons_append]
    rw [exponent, if_pos mark, if_neg digit, if_pos signed, append r]
    simp [Split.push, Split.prepend]
  all_goals simp

theorem halts_exponent {d : Char} (mark : isExponentMark d = false) (digit : d.isDigit = false) :
    Halts exponent d := by
  intro r z
  have none : digits (d :: z) = ⟨[], d :: z⟩ := by simp [digits, run, digit]
  rw [exponent_append]
  split
  · next empty => rw [exponent_of_not_mark mark, empty]
  · rw [none, Split.prepend, List.append_nil]

theorem greedy_exponent : Greedy exponent := by
  apply Greedy.of_reaches
  · intro r y
    rw [Reaches, exponent_append]
    split
    · next empty =>
      rw [empty]
      exact List.nil_prefix
    · exact List.prefix_append _ _
  · intro mark y lost
    apply exponent_of_not_mark
    rcases lost.cases with rfl | rfl | rfl <;> decide

end Exponent

section Fraction

theorem fraction_head {r s : List Char} {d : Char} (taken : (fraction r).taken = d :: s) : d = '.' := by
  revert taken
  fun_cases fraction r
  case case7 =>
    intro taken
    exact (List.cons.inj taken).1.symm
  all_goals simp

theorem takesPoint_digits {r y : List Char} (filled : (digits r).taken ≠ []) :
    takesPoint ((digits r).taken ++ y) = false := by
  have all := all_taken_run Char.isDigit r
  rcases taken : (digits r).taken with _ | ⟨d, s⟩
  · exact absurd taken filled
  · have digit : d.isDigit = true := by
      rw [digits] at taken
      simpa [taken] using And.left (by simpa [taken] using all)
    have other (c : Char) (symbol : c.isDigit = false) : d ≠ c := by
      rintro rfl
      simp [digit] at symbol
    simp [takesPoint, other '*' (by decide), other '/' (by decide), other '\\' (by decide),
      other '^' (by decide), other '\'' (by decide), other '.' (by decide)]

theorem greedy_fraction : Greedy fraction := by
  constructor
  · intro r y
    by_cases point : r.head? = some '.'
    · rcases r with _ | ⟨c, r⟩
      · simp at point
      obtain rfl : c = '.' := by simpa using point
      have here := fraction_point r
      split at here
      · left
        rw [Reaches, here]
        exact List.nil_prefix
      · by_cases again : takesPoint ((digits r).taken ++ y) = true
        · -- The point stands alone, and what follows takes it.
          have alone : (digits r).taken = [] := by
            apply Decidable.byContradiction
            intro filled
            simp [takesPoint_digits filled] at again
          rw [alone, List.nil_append] at again
          right
          refine ⟨[], '.', .inl ⟨rfl, again⟩, by simp [here, Split.push, alone], ?_⟩
          simp [here, Split.push, alone, fraction_point, again]
        · left
          rw [Reaches, here]
          simp only [Split.push, List.cons_append]
          rw [fraction_point, if_neg again]
          simp only [Split.push, List.cons_prefix_cons, true_and]
          exact reaches_run Char.isDigit r y
    · left
      rw [Reaches, fraction_of_head point]
      exact List.nil_prefix
  · rintro mark y (⟨rfl, taken⟩ | ⟨letter, _⟩)
    · rw [fraction_point, if_pos taken]
    · apply fraction_of_head
      rcases letter with rfl | rfl <;> simp

theorem halts_fraction {d : Char} (digit : d.isDigit = false) (symbol : "*/\\^'.".toList.contains d = false) :
    Halts fraction d := by
  have other : d ≠ '.' := by
    rintro rfl
    simp at symbol
  have free (z : List Char) : takesPoint (d :: z) = false := by simp_all [takesPoint]
  have stop (z : List Char) : fraction (d :: z) = ⟨[], d :: z⟩ := fraction_of_head (by simp [other])
  intro r z
  by_cases point : r.head? = some '.'
  · rcases r with _ | ⟨c, r⟩
    · simp at point
    obtain rfl : c = '.' := by simpa using point
    have here := fraction_point r
    split at here
    · rw [here, List.nil_append, stop]
    · have again : takesPoint ((digits r).taken ++ d :: z) = false := by
        by_cases filled : (digits r).taken = []
        · rw [filled, List.nil_append, free]
        · exact takesPoint_digits filled
      rw [here]
      simp only [Split.push, List.cons_append]
      rw [fraction_point, again]
      simp [halts_digits digit r z, Split.push]
  · rw [fraction_of_head point, List.nil_append, stop]

end Fraction

section Number

theorem greedy_hexRest : Greedy fun r => (run isHexDigit r).andThen imaginary := by
  apply (greedy_run (by decide) (by decide) (by decide)).andThen greedy_imaginary
  intro r d s taken
  apply halts_run
  rcases imaginary_head taken with rfl | rfl <;> decide

theorem halts_digits_exponent (r : List Char) (d : Char) (s : List Char)
    (taken : (exponent r).taken = d :: s) : Halts digits d :=
  halts_digits (not_isDigit_of_isExponentMark (exponent_head taken))

theorem halts_digits_fraction (r : List Char) (d : Char) (s : List Char)
    (taken : (fraction r).taken = d :: s) : Halts digits d := by
  rw [fraction_head taken]
  exact halts_digits (by decide)

theorem halts_fraction_exponent (r : List Char) (d : Char) (s : List Char)
    (taken : (exponent r).taken = d :: s) : Halts fraction d := by
  have mark := exponent_head taken
  apply halts_fraction (not_isDigit_of_isExponentMark mark)
  have cases : ((d = 'e' ∨ d = 'E') ∨ d = 'd') ∨ d = 'D' := by simpa [isExponentMark] using mark
  rcases cases with ((rfl | rfl) | rfl) | rfl <;> decide

theorem greedy_pointRest : Greedy fun r => ((digits r).andThen exponent).andThen imaginary := by
  apply (greedy_digits.andThen greedy_exponent halts_digits_exponent).andThen greedy_imaginary
  intro r d s taken
  have letter := imaginary_head taken
  refine .andThen (halts_digits ?_) (halts_exponent ?_ ?_) halts_digits_exponent
  all_goals rcases letter with rfl | rfl <;> decide

theorem greedy_wholeRest : Greedy fun r => (digits r).andThen fraction :=
  greedy_digits.andThen greedy_fraction halts_digits_fraction

theorem greedy_decimalRest :
    Greedy fun r => (((digits r).andThen fraction).andThen exponent).andThen imaginary := by
  refine (greedy_wholeRest.andThen greedy_exponent ?_).andThen greedy_imaginary ?_
  · intro r d s taken
    exact .andThen (halts_digits_exponent r d s taken) (halts_fraction_exponent r d s taken)
      halts_digits_fraction
  · intro r d s taken
    have letter := imaginary_head taken
    have whole : Halts (fun r => (digits r).andThen fraction) d := by
      refine .andThen (halts_digits ?_) (halts_fraction ?_ ?_) halts_digits_fraction
      all_goals rcases letter with rfl | rfl <;> decide
    refine whole.andThen (halts_exponent ?_ ?_) fun r d s taken => ?_
    · rcases letter with rfl | rfl <;> decide
    · rcases letter with rfl | rfl <;> decide
    · exact .andThen (halts_digits_exponent r d s taken) (halts_fraction_exponent r d s taken)
        halts_digits_fraction

theorem numberRest_point (r : List Char) :
    numberRest '.' r = ((digits r).andThen exponent).andThen imaginary := by
  simp [numberRest]

theorem numberRest_hex {x : Char} {r : List Char} (hex : startsHex (x :: r) = true) :
    numberRest '0' (x :: r) = ((run isHexDigit r).andThen imaginary).push x := by
  simp [numberRest, hex]

theorem numberRest_decimal {first : Char} {r : List Char} (point : first ≠ '.')
    (plain : (first == '0' && startsHex r) = false) :
    numberRest first r = (((digits r).andThen fraction).andThen exponent).andThen imaginary := by
  rw [numberRest.eq_def, plain]
  simp [point]

/-- No decimal number goes on with an `x`. -/
theorem decimalRest_letter {x : Char} (letter : x = 'x' ∨ x = 'X') (r : List Char) :
    (((digits (x :: r)).andThen fraction).andThen exponent).andThen imaginary = ⟨[], x :: r⟩ := by
  have whole : digits (x :: r) = ⟨[], x :: r⟩ := by rcases letter with rfl | rfl <;> simp [digits, run]
  have point : fraction (x :: r) = ⟨[], x :: r⟩ :=
    fraction_of_head (by rcases letter with rfl | rfl <;> simp)
  have mark : exponent (x :: r) = ⟨[], x :: r⟩ :=
    exponent_of_not_mark (by rcases letter with rfl | rfl <;> decide) r
  have unit : imaginary (x :: r) = ⟨[], x :: r⟩ := by
    rcases letter with rfl | rfl <;> simp [imaginary]
  simp [Split.andThen, Split.prepend, whole, point, mark, unit]

theorem startsHex_letter {x : Char} {r : List Char} (hex : startsHex (x :: r) = true) :
    x = 'x' ∨ x = 'X' := by
  rcases r with _ | ⟨h, r⟩
  · simp [startsHex] at hex
  · simp only [startsHex, Bool.and_eq_true, Bool.or_eq_true, beq_iff_eq] at hex
    exact hex.1

/-- A number goes on as a hexadecimal one before any text, if it begins as one. -/
theorem startsHex_hexRest {x : Char} {r : List Char} (hex : startsHex (x :: r) = true)
    (y : List Char) : startsHex (x :: (((run isHexDigit r).andThen imaginary).taken ++ y)) = true := by
  rcases r with _ | ⟨h, r⟩
  · simp [startsHex] at hex
  have digit : isHexDigit h = true := by
    simp only [startsHex, Bool.and_eq_true] at hex
    exact hex.2
  simpa [run, digit, Split.andThen, Split.prepend, startsHex] using hex

theorem Keeps.push {f g : List Char → Split} {c : Char} {r y : List Char} (rest : Keeps g r y)
    (here : f (c :: r) = (g r).push c)
    (again : f (c :: ((g r).taken ++ y)) = (g ((g r).taken ++ y)).push c) : Keeps f (c :: r) y := by
  rcases rest with reach | ⟨p, mark, lost, last, split⟩
  · left
    rw [Reaches, here]
    simp only [Split.push, List.cons_append]
    rw [again]
    exact (List.prefix_cons_inj c).mpr reach
  · right
    refine ⟨c :: p, mark, lost, by simp [here, Split.push, last], ?_⟩
    rw [here]
    simp only [Split.push, List.cons_append]
    rw [again, split]
    rfl

theorem Keeps.congr {f g : List Char → Split} {r y : List Char} (rest : Keeps g r y)
    (here : f r = g r) (again : f ((g r).taken ++ y) = g ((g r).taken ++ y)) : Keeps f r y := by
  simp only [Keeps, Reaches, here, again]
  exact rest

/-- Before another text a number goes at least as far as before, or it loses its last character. -/
theorem keeps_numberRest (first : Char) (r y : List Char) : Keeps (numberRest first) r y := by
  by_cases point : first = '.'
  · subst point
    exact (greedy_pointRest.keeps r y).congr (numberRest_point _) (numberRest_point _)
  cases hex : first == '0' && startsHex r with
  | true =>
    rw [Bool.and_eq_true, beq_iff_eq] at hex
    obtain ⟨rfl, hex⟩ := hex
    rcases r with _ | ⟨x, r⟩
    · simp [startsHex] at hex
    exact (greedy_hexRest.keeps r y).push (numberRest_hex hex) (numberRest_hex (startsHex_hexRest hex y))
  | false =>
    have here := numberRest_decimal point hex
    cases again : first == '0' && startsHex ((numberRest first r).taken ++ y) with
    | false =>
      rw [here] at again
      exact (greedy_decimalRest.keeps r y).congr here (numberRest_decimal point again)
    | true =>
      -- Only a lone zero can turn into a hexadecimal number.
      left
      rw [Bool.and_eq_true, beq_iff_eq] at again
      have alone : (numberRest first r).taken = [] := by
        rcases taken : (numberRest first r).taken with _ | ⟨x, s⟩
        · rfl
        · have letter := again.2
          rw [taken] at letter
          have whole := numberRest_whole first r
          rw [Split.whole, taken] at whole
          rw [here, ← whole, List.cons_append, decimalRest_letter (startsHex_letter letter)] at taken
          simp at taken
      rw [Reaches, alone]
      exact List.nil_prefix

end Number

section Quoted

/-- A line ends in front, or the text does. -/
def atBreak (r : List Char) : Bool :=
  r.isEmpty || atLineEnd r

theorem atBreak_of_taken_nil {quote : Char} {r : List Char} (none : (stringBody quote r).taken = []) :
    atBreak r = true := by
  rcases r with _ | ⟨c, r⟩
  · rfl
  · rw [stringBody_cons] at none
    split at none
    · next ended => simp [atBreak, ended]
    · split at none
      · split at none <;> simp [Split.push] at none
      · simp [Split.push] at none

theorem going_of_quote {quote : Char} (mark : quote = '\'' ∨ quote = '"') (r : List Char) :
    atLineEnd (quote :: r) = false := by
  rcases mark with rfl | rfl <;> simp [atLineEnd]

/-- No line ends before a string that its quote closes, whatever text follows it. -/
theorem going_of_stringBody {quote c : Char} {r : List Char} (going : atLineEnd (c :: r) = false)
    (closed : atBreak (stringBody quote r).rest = false) (y : List Char) :
    atLineEnd (c :: ((stringBody quote r).taken ++ y)) = false := by
  have whole := stringBody_whole quote r
  rcases taken : (stringBody quote r).taken with _ | ⟨d, s⟩
  · have nothing : (stringBody quote r).rest = r := by simpa [Split.whole, taken] using whole
    rw [nothing, atBreak_of_taken_nil taken] at closed
    simp at closed
  · rw [Split.whole, taken] at whole
    rw [← whole] at going
    exact going

/-- A string that its quote closes goes at least as far before another text. -/
theorem reaches_stringBody {quote : Char} (mark : quote = '\'' ∨ quote = '"') {r : List Char}
    (closed : atBreak (stringBody quote r).rest = false) (y : List Char) :
    Reaches (stringBody quote) r y := by
  -- A doubled quote takes two characters at once, so the induction is on the length.
  induction length : r.length using Nat.strongRecOn generalizing r with
  | ind n ih =>
  rcases r with _ | ⟨c, r⟩
  · simp [stringBody, atBreak] at closed
  cases ended : atLineEnd (c :: r) with
  | true =>
    rw [stringBody_cons, if_pos ended] at closed
    simp [atBreak, ended] at closed
  | false =>
    have here := stringBody_cons quote c r
    rw [if_neg (by simp [ended])] at here
    by_cases first : c = quote
    · subst first
      rw [if_pos rfl] at here
      split at here
      · next doubled =>
        have shorter : r.tail.length < n := by
          rw [← length, List.length_cons, List.length_tail]
          omega
        have further : Reaches (stringBody c) r.tail y :=
          ih _ shorter (by simpa [here, Split.push] using closed) rfl
        rw [Reaches, here]
        simp only [Split.push, List.cons_append]
        rw [stringBody_cons, going_of_quote mark]
        simp only [Bool.false_eq_true, if_false, if_true, List.head?_cons, List.tail_cons, Split.push]
        exact (List.prefix_cons_inj c).mpr ((List.prefix_cons_inj c).mpr further)
      · rw [Reaches, here]
        simp only [List.cons_append, List.nil_append]
        rw [stringBody_quote (going_of_quote mark y)]
        exact List.prefix_append [c] _
    · rw [if_neg first] at here
      have behind : atBreak (stringBody quote r).rest = false := by
        simpa [here, Split.push] using closed
      have further : Reaches (stringBody quote) r y := ih _ (by simp [← length]) behind rfl
      rw [Reaches, here]
      simp only [Split.push, List.cons_append]
      rw [stringBody_cons, going_of_stringBody ended behind, if_neg first]
      exact (List.prefix_cons_inj c).mpr further

end Quoted

end Scan

theorem Lexer.reaches_optional (second : Option Char) (r y : List Char) :
    Scan.Reaches (optional second) r y := by
  rcases r with _ | ⟨c, r⟩
  · exact List.nil_prefix
  · by_cases same : second = some c
    · simp [Scan.Reaches, optional, same]
    · simp [Scan.Reaches, optional, same]

end MatlabOutline
