import MatlabOutline.Proofs.Lexing.Lookahead

/-!
How far numbers and dotted names look ahead.
-/

namespace MatlabOutline

namespace Scan

theorem stable_imaginary : Stable imaginary := by
  intro r
  rcases r with _ | ⟨c, r⟩
  · exact .nil rfl
  by_cases mark : (c == 'i' || c == 'j') = true
  · by_cases longer : r.head?.any isIdentRest = true
    · apply StableAt.stop (by simp [imaginary, mark, longer])
      intro s padded
      cases padded with
      | line => simp at mark
      | cons c rest => simp [imaginary, rest.head?_eq, longer]
      | list _ short _ => simp [short] at longer
    · apply StableAt.push (g := fun r => ⟨[], r⟩) rfl (by simp [imaginary, mark, longer, Split.push])
      · intro s padded
        simp [imaginary, mark, padded.head?_eq, longer, Split.push]
      · exact fun _ _ => rfl
  · apply StableAt.stop (by simp [imaginary, mark])
    intro s padded
    rcases s with _ | ⟨d, s⟩
    · rfl
    · have same : d = c := by simpa using padded.head?_eq
      simp [imaginary, same, mark]

theorem stable_digits : Stable digits :=
  stable_run Char.isDigit

/-- A point in front belongs to an operator or to a continuation marker, not to a number. -/
def takesPoint : List Char → Bool
  | [] => false
  | c :: r => "*/\\^'".toList.contains c || c == '.' && r.head? == some '.'

theorem takesPoint_padded {r r' : List Char} (padded : Padded r r') : takesPoint r' = takesPoint r := by
  cases padded with
  | nil => rfl
  | line => rfl
  | cons c rest => simp [takesPoint, rest.head?_eq]
  | @list c r r' ident _ _ =>
    have point : c ≠ '.' := ne_of_isIdentRest ident (by decide)
    simp [takesPoint, point]

theorem fraction_point (r : List Char) :
    fraction ('.' :: r) = if takesPoint r then ⟨[], '.' :: r⟩ else (digits r).push '.' := by
  split
  · next taken =>
    rcases r with _ | ⟨c, r⟩
    · simp [takesPoint] at taken
    · simp [takesPoint] at taken
      rcases taken with (rfl | rfl | rfl | rfl | rfl) | ⟨rfl, next⟩
      all_goals try rfl
      rcases r with _ | ⟨d, r⟩
      · simp at next
      · simp at next
        rw [next]
        rfl
  · next free =>
    rw [fraction]
    all_goals
      intro tail same
      simp [same, takesPoint] at free

theorem fraction_of_head {r : List Char} (point : r.head? ≠ some '.') : fraction r = ⟨[], r⟩ := by
  rcases r with _ | ⟨c, r⟩
  · rfl
  · rw [fraction]
    intro s same
    simp_all

theorem stable_fraction : Stable fraction := by
  intro r
  by_cases point : r.head? = some '.'
  · rcases r with _ | ⟨c, r⟩
    · simp at point
    obtain rfl : c = '.' := by simpa using point
    by_cases taken : takesPoint r = true
    · apply StableAt.stop (by rw [fraction_point, if_pos taken])
      intro s padded
      obtain ⟨s, rfl, rest⟩ := padded.tail (by decide) (by decide)
      rw [fraction_point, takesPoint_padded rest, if_pos taken]
    · apply StableAt.push (digits_whole r) (by rw [fraction_point, if_neg taken]) _ (stable_digits r)
      intro s padded
      rw [fraction_point, takesPoint_padded padded, if_neg taken]
  · apply StableAt.stop (fraction_of_head point)
    intro s padded
    exact fraction_of_head (by rw [padded.head?_eq]; exact point)

theorem exponent_of_not_mark {c : Char} (mark : isExponentMark c = false) (r : List Char) :
    exponent (c :: r) = ⟨[], c :: r⟩ := by
  rcases r with _ | ⟨d, r⟩ <;> simp [exponent, mark]

/-- Neither a digit nor a sign before a digit comes first. -/
def lacksExponent : List Char → Bool
  | [] => true
  | d :: r => !d.isDigit && !((d == '+' || d == '-') && r.head?.any Char.isDigit)

theorem exponent_of_lacks {c : Char} {r : List Char} (lacks : lacksExponent r = true) :
    exponent (c :: r) = ⟨[], c :: r⟩ := by
  rcases r with _ | ⟨d, r⟩
  · rfl
  · simp only [lacksExponent, Bool.and_eq_true, Bool.not_eq_true'] at lacks
    simp [exponent, lacks.1, lacks.2]

theorem lacksExponent_padded {r r' : List Char} (padded : Padded r r')
    (lacks : lacksExponent r = true) : lacksExponent r' = true := by
  cases padded with
  | nil => rfl
  | line => rfl
  | cons c rest =>
    rw [lacksExponent, rest.head?_eq]
    exact lacks
  | @list c r r' ident _ _ =>
    have sign : (c == '+' || c == '-') = false := by
      rw [Bool.or_eq_false_iff, beq_eq_false_iff_ne, beq_eq_false_iff_ne]
      exact ⟨ne_of_isIdentRest ident (by decide), ne_of_isIdentRest ident (by decide)⟩
    simp only [lacksExponent, Bool.and_eq_true, Bool.not_eq_true'] at lacks ⊢
    simp [lacks.1, sign]

theorem stable_exponent : Stable exponent := by
  intro r
  rcases r with _ | ⟨c, r⟩
  · exact .nil rfl
  by_cases mark : isExponentMark c = true
  · by_cases lacks : lacksExponent r = true
    · apply StableAt.stop (exponent_of_lacks lacks)
      intro s padded
      cases padded with
      | line => simp [isExponentMark] at mark
      | cons c rest => exact exponent_of_lacks (lacksExponent_padded rest lacks)
      | list => simp [exponent]
    · rcases r with _ | ⟨d, r⟩
      · simp [lacksExponent] at lacks
      by_cases digit : d.isDigit = true
      · apply StableAt.push (digits_whole (d :: r)) (by simp [exponent, mark, digit]) _ (stable_digits _)
        intro s padded
        rcases s with _ | ⟨e, s⟩
        · simpa using padded.head?_eq
        obtain rfl : e = d := by simpa using padded.head?_eq
        simp [exponent, mark, digit]
      · have signed : ((d == '+' || d == '-') && r.head?.any Char.isDigit) = true := by
          cases sign : (d == '+' || d == '-') && r.head?.any Char.isDigit with
          | true => rfl
          | false => simp [lacksExponent, digit, sign] at lacks
        have here (s : List Char) (same : s.head? = r.head?) :
            exponent (c :: d :: s) = ((digits s).push d).push c := by
          rw [exponent, if_pos mark, if_neg digit, same, if_pos signed]
        intro r' padded
        rw [here r rfl] at padded ⊢
        have step := here _ (Split.padded_append (digits_whole r) padded).head?_eq
        rw [stable_digits r r' padded] at step
        exact step
  · rw [Bool.not_eq_true] at mark
    apply StableAt.stop (exponent_of_not_mark mark r)
    intro s padded
    rcases s with _ | ⟨d, s⟩
    · rfl
    obtain rfl : d = c := by simpa using padded.head?_eq
    exact exponent_of_not_mark mark s

theorem startsHex_padded {r r' : List Char} (padded : Padded r r') (free : startsHex r = false) :
    startsHex r' = false := by
  cases padded with
  | nil => exact free
  | line r r' => rcases r' with _ | ⟨d, r'⟩ <;> simp [startsHex]
  | @cons c r r' rest =>
    rcases r' with _ | ⟨d, r'⟩
    · simp [startsHex]
    rcases r with _ | ⟨e, r⟩
    · simpa using rest.head?_eq
    obtain rfl : d = e := by simpa using rest.head?_eq
    simpa [startsHex] using free
  | list => simp [startsHex, isHexDigit]

theorem stable_decimalRest :
    Stable fun r => (((digits r).andThen fraction).andThen exponent).andThen imaginary :=
  ((stable_digits.andThen stable_fraction fraction_whole).andThen stable_exponent
    exponent_whole).andThen stable_imaginary imaginary_whole

theorem stable_pointRest :
    Stable fun r => ((digits r).andThen exponent).andThen imaginary :=
  (stable_digits.andThen stable_exponent exponent_whole).andThen stable_imaginary imaginary_whole

theorem stable_hexRest : Stable fun r => (run isHexDigit r).andThen imaginary :=
  (stable_run isHexDigit).andThen stable_imaginary imaginary_whole

theorem stable_numberRest (first : Char) : Stable (numberRest first) := by
  intro r
  by_cases hex : (first == '0' && startsHex r) = true
  · rcases r with _ | ⟨x, _ | ⟨h, r⟩⟩
    · simp [startsHex] at hex
    · simp [startsHex] at hex
    have total := Split.whole_andThen (run isHexDigit (h :: r)) imaginary imaginary_whole
    rw [run_whole] at total
    apply StableAt.push total (by simp only [numberRest, hex, if_true]) _ (stable_hexRest (h :: r))
    intro s padded
    rcases s with _ | ⟨k, s⟩
    · simpa using padded.head?_eq
    obtain rfl : k = h := by simpa using padded.head?_eq
    have hex' : (first == '0' && startsHex (x :: k :: s)) = true := hex
    simp only [numberRest, hex', if_true]
  · have plain (s : List Char) (padded : Padded r s) : ¬ (first == '0' && startsHex s) = true := by
      rw [Bool.not_eq_true, Bool.and_eq_false_iff] at hex ⊢
      exact hex.imp_right (startsHex_padded padded)
    have total : (numberRest first r).whole = r := numberRest_whole first r
    rw [numberRest.eq_def, if_neg hex] at total
    by_cases point : (first == '.') = true
    · rw [if_pos point] at total
      apply (stable_pointRest r).congr total
      intro s padded
      rw [numberRest.eq_def, if_neg (plain s padded), if_pos point]
    · rw [if_neg point] at total
      apply (stable_decimalRest r).congr total
      intro s padded
      rw [numberRest.eq_def, if_neg (plain s padded), if_neg point]

/-- A dot that a letter follows is in front. -/
def startsPart (r : List Char) : Bool :=
  r.head? == some '.' && r.tail.head?.any isIdentStart

theorem startsPart_padded {r r' : List Char} (padded : Padded r r') : startsPart r' = startsPart r := by
  cases padded with
  | nil => rfl
  | line => rfl
  | cons c rest => simp [startsPart, rest.head?_eq]
  | @list c r r' ident _ _ =>
    have point : (c == '.') = false := beq_false_of_ne (ne_of_isIdentRest ident (by decide))
    simp [startsPart, point]

theorem dottedRest_stop {r : List Char} (stop : startsPart r = false) : dottedRest r = ⟨[], r⟩ := by
  rw [dottedRest.eq_def]
  split
  · next c s => simp_all [startsPart]
  · rfl

theorem dottedRest_part {r : List Char} (part : startsPart ('.' :: r) = true) :
    dottedRest ('.' :: r) = ((run isIdentRest r).andThen dottedRest).push '.' := by
  rcases r with _ | ⟨c, r⟩
  · simp [startsPart] at part
  have letter : isIdentStart c = true := by simpa [startsPart] using part
  rw [dottedRest.eq_def]
  simp [letter, run, isIdentRest_of_isIdentStart c letter, Split.andThen, Split.prepend, Split.push]

theorem stable_dottedRest : Stable dottedRest := by
  intro r
  induction length : r.length using Nat.strongRecOn generalizing r with
  | ind n ih =>
  by_cases part : startsPart r = true
  · rcases r with _ | ⟨c, r⟩
    · simp [startsPart] at part
    obtain rfl : c = '.' := by simp_all [startsPart]
    have bound := Split.length_rest_le (run_whole isIdentRest r)
    have further := ih (run isIdentRest r).rest.length (by simp [← length]; omega) _ rfl
    have rest := (stable_run isIdentRest r).andThen further (dottedRest_whole _)
    have total := Split.whole_andThen (run isIdentRest r) dottedRest dottedRest_whole
    rw [run_whole] at total
    apply StableAt.push total (dottedRest_part part) _ rest
    intro s padded
    exact dottedRest_part (by rw [startsPart_padded (.cons '.' padded), part])
  · rw [Bool.not_eq_true] at part
    apply StableAt.stop (dottedRest_stop part)
    intro s padded
    exact dottedRest_stop (by rw [startsPart_padded padded, part])

end Scan

end MatlabOutline
