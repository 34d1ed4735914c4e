import MatlabOutline.Proofs.LineEndings.Recoding
import MatlabOutline.Proofs.Lexing.Shapes

/-!
Scanners on a text behind which white space or a line feed stands. Main statements: a number ends before
white space where it ends at the end of the text (`Scan.boundedBy_numberRest`), and white space and strings
do before a line feed, but for a carriage return at the end of the text (`Scan.meetsFeed_spaces`,
`Scan.meetsFeed_stringBody`).
-/

namespace MatlabOutline

namespace Scan

section Bounded

/-- The scanner takes the same part of a text when `d` and any other text stand behind it. -/
def BoundedBy (d : Char) (f : List Char → Split) : Prop :=
  ∀ r t, f (r ++ d :: t) = ⟨(f r).taken, (f r).rest ++ d :: t⟩

/-- What bounds a scanner is never taken. -/
theorem BoundedBy.not_mem {d : Char} {f : List Char → Split} (bounded : BoundedBy d f)
    (total : ∀ r, (f r).whole = r) (r : List Char) : d ∉ (f r).taken := by
  intro member
  have inside : d ∈ r := by
    rw [← total r]
    exact List.mem_append_left _ member
  obtain ⟨v, w, rfl, away⟩ := List.eq_append_cons_of_mem inside
  rw [bounded] at member
  apply away
  rw [← total v]
  exact List.mem_append_left _ member

theorem BoundedBy.andThen {d : Char} {f g : List Char → Split} (first : BoundedBy d f)
    (second : BoundedBy d g) : BoundedBy d fun r => (f r).andThen g := by
  intro r t
  simp only [Split.andThen, Split.prepend, first r t, second (f r).rest t]

variable {d : Char} (blank : isBlank d = true)

theorem head?_any_append {p : Char → Bool} (other : p d = false) (r t : List Char) :
    (r ++ d :: t).head?.any p = r.head?.any p := by
  cases r <;> simp [other]

theorem boundedBy_run {p : Char → Bool} (other : p d = false) : BoundedBy d (run p) := by
  intro r t
  induction r with
  | nil => simp [run, other]
  | cons c r ih =>
    cases member : p c with
    | false => simp [run, member]
    | true => simpa [run, member] using ih

include blank

theorem ne_of_isBlank {c : Char} (solid : isBlank c = false) : d ≠ c := by
  rintro rfl
  simp [blank] at solid

theorem not_isIdentRest_of_isBlank : isIdentRest d = false := by
  cases ident : isIdentRest d with
  | false => rfl
  | true => simp [not_isBlank_of_isIdentRest d ident] at blank

theorem not_isDigit_of_isBlank : d.isDigit = false := by
  have other := not_isIdentRest_of_isBlank blank
  simp only [isIdentRest, Char.isAlphanum, Bool.or_eq_false_iff] at other
  exact other.1.2

theorem not_isHexDigit_of_isBlank : isHexDigit d = false := by
  cases hex : isHexDigit d with
  | false => rfl
  | true =>
    have ident : isIdentRest d = true := by
      delta isHexDigit at hex
      delta isIdentRest Char.isAlphanum Char.isAlpha Char.isUpper Char.isLower
      simp only [Bool.or_eq_true, Bool.and_eq_true, decide_eq_true_eq, Char.le_def] at hex ⊢
      rcases hex with (digit | lower) | upper
      · exact .inl (.inr digit)
      · refine .inl (.inl (.inr ?_))
        exact ⟨lower.1, Nat.le_trans lower.2 (by decide)⟩
      · refine .inl (.inl (.inl ?_))
        exact ⟨upper.1, Nat.le_trans upper.2 (by decide)⟩
    simp [not_isIdentRest_of_isBlank blank] at ident

theorem boundedBy_ident : BoundedBy d (run isIdentRest) :=
  boundedBy_run (not_isIdentRest_of_isBlank blank)

theorem boundedBy_digits : BoundedBy d digits :=
  boundedBy_run (not_isDigit_of_isBlank blank)

theorem boundedBy_imaginary : BoundedBy d imaginary := by
  rintro (_ | ⟨c, r⟩) t
  · simp [imaginary, ne_of_isBlank blank (c := 'i') (by decide),
      ne_of_isBlank blank (c := 'j') (by decide)]
  · rw [List.cons_append, imaginary, imaginary,
      head?_any_append (not_isIdentRest_of_isBlank blank)]
    split <;> rfl

theorem takesPoint_bounded (r t : List Char) : takesPoint (r ++ d :: t) = takesPoint r := by
  rcases r with _ | ⟨c, r⟩
  · have point := ne_of_isBlank blank (c := '.') (by decide)
    simp [takesPoint, point, ne_of_isBlank blank (c := '*') (by decide),
      ne_of_isBlank blank (c := '/') (by decide), ne_of_isBlank blank (c := '\\') (by decide),
      ne_of_isBlank blank (c := '^') (by decide), ne_of_isBlank blank (c := '\'') (by decide)]
  · have next : ((r ++ d :: t).head? == some '.') = (r.head? == some '.') := by
      cases r <;> simp [ne_of_isBlank blank (c := '.') (by decide)]
    simp only [List.cons_append, takesPoint, next]

theorem boundedBy_fraction : BoundedBy d fraction := by
  have point := ne_of_isBlank blank (c := '.') (by decide)
  rintro (_ | ⟨c, r⟩) t
  · exact fraction_of_head (by simpa using point)
  · by_cases first : c = '.'
    · subst first
      rw [List.cons_append, fraction_point, fraction_point, takesPoint_bounded blank,
        boundedBy_digits blank]
      split <;> rfl
    · rw [fraction_of_head (by simpa using first), fraction_of_head (by simpa using first)]

theorem not_isExponentMark_of_isBlank : isExponentMark d = false := by
  simp [isExponentMark, ne_of_isBlank blank (c := 'e') (by decide),
    ne_of_isBlank blank (c := 'E') (by decide), ne_of_isBlank blank (c := 'd') (by decide),
    ne_of_isBlank blank (c := 'D') (by decide)]

theorem boundedBy_exponent : BoundedBy d exponent := by
  have digit := not_isDigit_of_isBlank blank
  have sign : (d == '+' || d == '-') = false := by
    simp [ne_of_isBlank blank (c := '+') (by decide), ne_of_isBlank blank (c := '-') (by decide)]
  rintro (_ | ⟨c, _ | ⟨e, r⟩⟩) t
  · exact exponent_of_not_mark (not_isExponentMark_of_isBlank blank) t
  · exact exponent_of_lacks (by simp [lacksExponent, digit, sign])
  · have further := boundedBy_digits blank (e :: r) t
    rw [List.cons_append] at further
    simp only [List.cons_append, exponent, head?_any_append digit, further,
      boundedBy_digits blank r t]
    split
    · split
      · rfl
      · split <;> rfl
    · rfl

theorem startsHex_bounded (r t : List Char) : startsHex (r ++ d :: t) = startsHex r := by
  rcases r with _ | ⟨x, _ | ⟨h, r⟩⟩
  · rcases t with _ | ⟨e, t⟩ <;>
      simp [startsHex, ne_of_isBlank blank (c := 'x') (by decide),
        ne_of_isBlank blank (c := 'X') (by decide)]
  · simp [startsHex, not_isHexDigit_of_isBlank blank]
  · rfl

theorem boundedBy_numberRest (first : Char) : BoundedBy d (numberRest first) := by
  have hexRest := (boundedBy_run (not_isHexDigit_of_isBlank blank)).andThen (boundedBy_imaginary blank)
  have pointRest := ((boundedBy_digits blank).andThen (boundedBy_exponent blank)).andThen
    (boundedBy_imaginary blank)
  have decimalRest := (((boundedBy_digits blank).andThen (boundedBy_fraction blank)).andThen
    (boundedBy_exponent blank)).andThen (boundedBy_imaginary blank)
  intro r t
  have same := startsHex_bounded blank r t
  by_cases point : first = '.'
  · subst point
    rw [numberRest_point, numberRest_point]
    exact pointRest r t
  cases hex : first == '0' && startsHex r with
  | true =>
    rw [Bool.and_eq_true, beq_iff_eq] at hex
    obtain ⟨rfl, hex⟩ := hex
    rcases r with _ | ⟨x, r⟩
    · simp [startsHex] at hex
    rw [hex, List.cons_append] at same
    rw [List.cons_append, numberRest_hex same, numberRest_hex hex]
    exact congrArg (Split.push x) (hexRest r t)
  | false =>
    rw [numberRest_decimal point (by rw [same, hex]), numberRest_decimal point hex]
    exact decimalRest r t

end Bounded

section Feed

/-- Before a line feed the scanner stops where it stops on `r`, or it leaves a carriage return at the end
of `r` to the line end. -/
def MeetsFeed (f : List Char → Split) (r : List Char) : Prop :=
  ((∀ t, f (r ++ '\n' :: t) = ⟨(f r).taken, (f r).rest ++ '\n' :: t⟩) ∧
      ((f r).rest = [] → r.getLast? ≠ some '\r')) ∨
    ∃ v, r = v ++ ['\r'] ∧ f r = ⟨r, []⟩ ∧ ∀ t, f (r ++ '\n' :: t) = ⟨v, '\r' :: '\n' :: t⟩

theorem MeetsFeed.stop {f : List Char → Split} {r : List Char} (here : f r = ⟨[], r⟩)
    (there : ∀ t, f (r ++ '\n' :: t) = ⟨[], r ++ '\n' :: t⟩) : MeetsFeed f r := by
  refine .inl ⟨fun t => by rw [there, here], fun empty => ?_⟩
  rw [here] at empty
  simp [show r = [] from empty]

theorem MeetsFeed.push {f g : List Char → Split} {c : Char} {r : List Char}
    (more : ¬ (c = '\r' ∧ r = [])) (here : f (c :: r) = (g r).push c)
    (there : ∀ t, f (c :: (r ++ '\n' :: t)) = (g (r ++ '\n' :: t)).push c) (rest : MeetsFeed g r) :
    MeetsFeed f (c :: r) := by
  rcases rest with ⟨same, last⟩ | ⟨v, rfl, whole, left⟩
  · refine .inl ⟨fun t => ?_, fun empty => ?_⟩
    · rw [List.cons_append, there, same, here]
      rfl
    · rw [here] at empty
      have behind := last empty
      rcases r with _ | ⟨d, r⟩
      · simpa using more
      · simpa using behind
  · refine .inr ⟨c :: v, rfl, by rw [here, whole]; rfl, fun t => ?_⟩
    rw [List.cons_append, there, left]
    rfl

/-- A line end in front is the same before a line feed, but for a carriage return that ends the text. -/
theorem atLineEnd_feed {c : Char} {r : List Char} (more : ¬ (c = '\r' ∧ r = [])) (t : List Char) :
    atLineEnd (c :: (r ++ '\n' :: t)) = atLineEnd (c :: r) := by
  rcases r with _ | ⟨d, r⟩
  · have first : c ≠ '\r' := fun same => more ⟨same, rfl⟩
    simp [atLineEnd, first]
  · simp [atLineEnd]

/-- For a scanner that stops at line ends and takes a last carriage return, only other characters can
make a difference. -/
theorem MeetsFeed.of_cons {f : List Char → Split} (ended : ∀ s, atLineEnd s = true → f s = ⟨[], s⟩)
    (last : f ['\r'] = ⟨['\r'], []⟩) {c : Char} {r : List Char}
    (going : ¬ (c = '\r' ∧ r = []) → (∀ t, atLineEnd (c :: (r ++ '\n' :: t)) = false) →
      atLineEnd (c :: r) = false → MeetsFeed f (c :: r)) : MeetsFeed f (c :: r) := by
  by_cases single : c = '\r' ∧ r = []
  · obtain ⟨rfl, rfl⟩ := single
    exact .inr ⟨[], rfl, last, fun t => ended _ rfl⟩
  · have same := atLineEnd_feed single
    cases here : atLineEnd (c :: r) with
    | true => exact .stop (ended _ here) fun t => ended _ (by rw [List.cons_append, same, here])
    | false => exact going single (fun t => by rw [same, here]) here

/-- Where a scanner meets line feeds, no line end arises between what it takes and its rest. -/
theorem noBreak_of_meetsFeed {f : List Char → Split} (meets : ∀ r, MeetsFeed f r)
    (total : ∀ r, (f r).whole = r) (r : List Char) : Lexer.NoBreak (f r).taken (f r).rest := by
  intro last head
  obtain ⟨v, ending⟩ := List.getLast?_eq_some_iff.mp last
  rcases rest : (f r).rest with _ | ⟨d, s⟩
  · simp [rest] at head
  obtain rfl : d = '\n' := by simpa [rest] using head
  have cut : r = v ++ ['\r'] ++ '\n' :: s := by rw [← total r, Split.whole, ending, rest]
  have here : f (v ++ ['\r'] ++ '\n' :: s) = ⟨v ++ ['\r'], '\n' :: s⟩ := by
    rw [← cut, ← ending, ← rest]
  rcases meets (v ++ ['\r']) with ⟨same, behind⟩ | ⟨w, whole, -, left⟩
  · rw [same, Split.mk.injEq] at here
    exact behind (by simpa using here.2) (by simp)
  · rw [left, Split.mk.injEq] at here
    simp at here

theorem meetsFeed_of_bounded {f : List Char → Split} (feed : BoundedBy '\n' f)
    (carriage : BoundedBy '\r' f) (total : ∀ r, (f r).whole = r) (r : List Char) : MeetsFeed f r := by
  refine .inl ⟨feed r, fun empty last => carriage.not_mem total r ?_⟩
  have whole : (f r).taken = r := by simpa [Split.whole, empty] using total r
  rw [whole]
  exact List.mem_of_getLast? last

theorem spaces_of_atLineEnd {s : List Char} (ended : atLineEnd s = true) : spaces s = ⟨[], s⟩ := by
  rcases s with _ | ⟨c, r⟩
  · rfl
  · rw [spaces_cons, if_pos ended]

theorem stringBody_of_atLineEnd {quote : Char} {s : List Char} (ended : atLineEnd s = true) :
    stringBody quote s = ⟨[], s⟩ := by
  rcases s with _ | ⟨c, r⟩
  · simp [stringBody]
  · rw [stringBody_cons, if_pos ended]

theorem meetsFeed_spaces (r : List Char) : MeetsFeed spaces r := by
  induction r with
  | nil => exact .stop rfl fun t => spaces_of_atLineEnd rfl
  | cons c r ih =>
    refine .of_cons (fun s => spaces_of_atLineEnd) rfl fun more there here => ?_
    cases blank : isBlank c with
    | true => exact .push more (by simp [spaces_cons, here, blank]) (by simp [spaces_cons, there, blank]) ih
    | false => exact .stop (by simp [spaces_cons, here, blank]) (by simp [spaces_cons, there, blank])

theorem meetsFeed_stringBody {quote : Char} (mark : quote = '\'' ∨ quote = '"') (r : List Char) :
    MeetsFeed (stringBody quote) r := by
  -- A doubled quote takes two characters at once, so the induction is on the length.
  induction length : r.length using Nat.strongRecOn generalizing r with
  | ind n ih =>
  rcases r with _ | ⟨c, r⟩
  · exact .stop (by simp [stringBody]) fun t => stringBody_of_atLineEnd rfl
  refine .of_cons (fun s => stringBody_of_atLineEnd) (by simp [stringBody]) fun more there here => ?_
  by_cases first : c = quote
  · subst first
    have line : c ≠ '\n' := by rcases mark with rfl | rfl <;> decide
    have carriage : c ≠ '\r' := by rcases mark with rfl | rfl <;> decide
    refine .push more (stringBody_quote here) (fun t => stringBody_quote (there t)) ?_
    by_cases doubled : r.head? = some c
    · rcases r with _ | ⟨d, r⟩
      · simp at doubled
      obtain rfl : d = c := by simpa using doubled
      have rest := ih r.length (by rw [← length, List.length_cons, List.length_cons]; omega) r rfl
      exact .push (by simp [carriage]) (by simp [secondQuote]) (by simp [secondQuote]) rest
    · refine .stop (by simp [secondQuote, doubled]) fun t => ?_
      rcases r with _ | ⟨d, r⟩
      · simp [secondQuote, line.symm]
      · simp_all [secondQuote]
  · have rest := ih r.length (by simp [← length]) r rfl
    refine .push more ?_ (fun t => ?_) rest <;>
      rw [stringBody_cons, if_neg (by simp [there, here]), if_neg first]

end Feed

end Scan

end MatlabOutline
