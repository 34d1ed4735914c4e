import MatlabOutline.Proofs.Lexing.Lookahead

/-!
The scanners that stop at line ends look no further: line bodies, white space, strings and block
comments.
-/

namespace MatlabOutline

namespace Scan

/-- A line end comes first. -/
def atLineEnd : List Char → Bool
  | [] => false
  | c :: r => c == '\n' || c == '\r' && r.head? == some '\n'

theorem atLineEnd_padded {r r' : List Char} (padded : Padded r r') : atLineEnd r' = atLineEnd r := by
  cases padded with
  | nil => rfl
  | line => rfl
  | cons c rest => simp [atLineEnd, rest.head?_eq]
  | @list c r r' ident _ _ =>
    have carriage : c ≠ '\r' := ne_of_isIdentRest ident (by decide)
    simp [atLineEnd, carriage]

theorem atLineEnd_cons_iff {c : Char} {r : List Char} :
    atLineEnd (c :: r) = true ↔ c = '\n' ∨ c = '\r' ∧ ∃ s, r = '\n' :: s := by
  rcases r with _ | ⟨d, r⟩ <;> simp [atLineEnd]

theorem lineBody_cons (c : Char) (r : List Char) :
    lineBody (c :: r) = if atLineEnd (c :: r) then ⟨[], c :: r⟩ else (lineBody r).push c := by
  split
  · next ended =>
    rcases atLineEnd_cons_iff.mp ended with rfl | ⟨rfl, s, rfl⟩ <;> rfl
  · next going =>
    rw [atLineEnd_cons_iff] at going
    rw [lineBody]
    · exact fun feed => going (.inl feed)
    · exact fun s carriage rest => going (.inr ⟨carriage, s, rest⟩)

theorem spaces_cons (c : Char) (r : List Char) :
    spaces (c :: r) =
      if atLineEnd (c :: r) then ⟨[], c :: r⟩
      else if isBlank c then (spaces r).push c else ⟨[], c :: r⟩ := by
  generalize whole : c :: r = cs
  fun_cases spaces cs
  case case1 => simp at whole
  case case2 s => simp [atLineEnd]
  case case3 s => simp [atLineEnd]
  all_goals
    obtain ⟨rfl, rfl⟩ := List.cons.inj whole
    rw [if_neg (mt atLineEnd_cons_iff.mp (by simp_all))]
    simp_all

theorem stringBody_cons (quote c : Char) (r : List Char) :
    stringBody quote (c :: r) =
      if atLineEnd (c :: r) then ⟨[], c :: r⟩
      else if c = quote then
        if r.head? = some quote then ((stringBody quote r.tail).push quote).push c else ⟨[c], r⟩
      else (stringBody quote r).push c := by
  split
  · next ended =>
    rcases atLineEnd_cons_iff.mp ended with rfl | ⟨rfl, s, rfl⟩ <;> simp [stringBody]
  · next going =>
    rw [atLineEnd_cons_iff] at going
    rcases r with _ | ⟨d, r⟩
    · have single : stringBody quote [c] = ⟨[c], []⟩ := by
        rw [stringBody]
        exact fun feed => going (.inl feed)
      rw [single]
      by_cases first : c = quote <;> simp [first, stringBody, Split.push]
    · rw [stringBody]
      · by_cases first : c = quote <;> by_cases second : d = quote <;> simp [first, second]
      · exact fun feed => going (.inl feed)
      · exact fun carriage rest => going (.inr ⟨carriage, r, by rw [rest]⟩)

theorem stable_lineBody : Stable lineBody := by
  intro r
  induction r with
  | nil => exact .nil rfl
  | cons c r ih =>
    by_cases ended : atLineEnd (c :: r) = true
    · apply StableAt.stop (by rw [lineBody_cons, if_pos ended])
      intro s padded
      rcases s with _ | ⟨d, s⟩
      · rfl
      · rw [lineBody_cons, atLineEnd_padded padded, if_pos ended]
    · apply StableAt.push (lineBody_whole r) (by rw [lineBody_cons, if_neg ended]) _ ih
      intro s padded
      rw [lineBody_cons, atLineEnd_padded (.cons c padded), if_neg ended]

theorem stable_spaces : Stable spaces := by
  intro r
  induction r with
  | nil => exact .nil rfl
  | cons c r ih =>
    by_cases ended : atLineEnd (c :: r) = true
    · apply StableAt.stop (by rw [spaces_cons, if_pos ended])
      intro s padded
      rcases s with _ | ⟨d, s⟩
      · rfl
      · rw [spaces_cons, atLineEnd_padded padded, if_pos ended]
    · by_cases blank : isBlank c = true
      · apply StableAt.push (spaces_whole r) (by rw [spaces_cons, if_neg ended, if_pos blank]) _ ih
        intro s padded
        rw [spaces_cons, atLineEnd_padded (.cons c padded), if_neg ended, if_pos blank]
      · apply StableAt.stop (by rw [spaces_cons, if_neg ended, if_neg blank])
        intro s padded
        rcases s with _ | ⟨d, s⟩
        · rfl
        · have same : d = c := by simpa using padded.head?_eq
          rw [spaces_cons, atLineEnd_padded padded, if_neg ended, same, if_neg blank]

/-- A second quote right behind the first, with the rest of the string, or nothing. -/
def secondQuote (quote : Char) (r : List Char) : Split :=
  if r.head? = some quote then (stringBody quote r.tail).push quote else ⟨[], r⟩

theorem secondQuote_whole (quote : Char) (r : List Char) : (secondQuote quote r).whole = r := by
  rcases r with _ | ⟨d, r⟩
  · rfl
  · by_cases same : d = quote <;> simp [secondQuote, same, stringBody_whole]

theorem stringBody_quote {quote : Char} {r : List Char}
    (going : atLineEnd (quote :: r) = false) :
    stringBody quote (quote :: r) = (secondQuote quote r).push quote := by
  rw [stringBody_cons, going]
  by_cases doubled : r.head? = some quote <;> simp [secondQuote, doubled, Split.push]

theorem stableAt_secondQuote {quote : Char} {r : List Char}
    (rest : StableAt (stringBody quote) r.tail) : StableAt (secondQuote quote) r := by
  rcases r with _ | ⟨d, r⟩
  · exact .nil rfl
  by_cases same : d = quote
  · subst same
    apply StableAt.push (stringBody_whole d r) (by simp [secondQuote]) _ rest
    intro s padded
    simp [secondQuote]
  · apply StableAt.stop (by simp [secondQuote, same])
    intro s padded
    simp [secondQuote, padded.head?_eq, same]

theorem stable_stringBody (quote : Char) : Stable (stringBody quote) := by
  intro r
  -- A doubled quote takes two characters at once, so the induction is on the length.
  induction length : r.length using Nat.strongRecOn generalizing r with
  | ind n ih =>
  rcases r with _ | ⟨c, r⟩
  · exact .nil (by simp [stringBody])
  by_cases ended : atLineEnd (c :: r) = true
  · apply StableAt.stop (by rw [stringBody_cons, if_pos ended])
    intro s padded
    rcases s with _ | ⟨d, s⟩
    · simp [stringBody]
    · rw [stringBody_cons, atLineEnd_padded padded, if_pos ended]
  rw [Bool.not_eq_true] at ended
  have going (s : List Char) (padded : Padded r s) : atLineEnd (c :: s) = false := by
    rw [atLineEnd_padded (.cons c padded), ended]
  by_cases first : c = quote
  · subst first
    have shorter : r.tail.length < n := by
      rw [← length, List.length_cons, List.length_tail]
      omega
    have rest := stableAt_secondQuote (ih r.tail.length shorter r.tail rfl)
    apply StableAt.push (secondQuote_whole c r) (stringBody_quote ended) _ rest
    intro s padded
    exact stringBody_quote (going s padded)
  · have rest := ih r.length (by simp [← length]) r rfl
    apply StableAt.push (stringBody_whole quote r) _ _ rest
    · rw [stringBody_cons, if_neg (by simp [ended]), if_neg first]
    · intro s padded
      rw [stringBody_cons, if_neg (by simp [going s padded]), if_neg first]

theorem lineEnd_of_not {r : List Char} (going : atLineEnd r = false) : lineEnd r = ⟨[], r⟩ := by
  rcases r with _ | ⟨c, r⟩
  · rfl
  · have away : ¬ atLineEnd (c :: r) = true := by simp [going]
    rw [atLineEnd_cons_iff] at away
    rw [lineEnd]
    · rintro s same
      exact away (.inl (List.cons.inj same).1)
    · rintro s same
      exact away (.inr ⟨(List.cons.inj same).1, s, (List.cons.inj same).2⟩)

theorem taken_lineEnd_ne {r : List Char} (ended : atLineEnd r = true) : (lineEnd r).taken ≠ [] := by
  rcases r with _ | ⟨c, r⟩
  · simp [atLineEnd] at ended
  · rcases atLineEnd_cons_iff.mp ended with rfl | ⟨rfl, s, rfl⟩ <;> simp [lineEnd]

theorem lineEnd_append {r : List Char} (ended : atLineEnd r = true) (s : List Char) :
    lineEnd ((lineEnd r).taken ++ s) = ⟨(lineEnd r).taken, s⟩ := by
  rcases r with _ | ⟨c, r⟩
  · simp [atLineEnd] at ended
  · rcases atLineEnd_cons_iff.mp ended with rfl | ⟨rfl, t, rfl⟩ <;> rfl

theorem blockLines_stop {depth : Nat} {r : List Char} (going : atLineEnd r = false) :
    blockLines depth r = ⟨[], r⟩ := by
  rw [blockLines.eq_def]
  simp [lineEnd_of_not going]

theorem blockLines_last {depth : Nat} {r : List Char} (ended : (lineEnd r).taken ≠ [])
    (closed : depthAfter depth (lineBody (lineEnd r).rest).taken = 0) :
    blockLines depth r = (lineBody (lineEnd r).rest).prepend (lineEnd r).taken := by
  rw [blockLines.eq_def]
  simp [ended, closed]

theorem blockLines_next {depth : Nat} {r : List Char} (ended : (lineEnd r).taken ≠ [])
    (inner : depthAfter depth (lineBody (lineEnd r).rest).taken ≠ 0) :
    blockLines depth r =
      (blockLines (depthAfter depth (lineBody (lineEnd r).rest).taken)
        (lineBody (lineEnd r).rest).rest).prepend
          ((lineEnd r).taken ++ (lineBody (lineEnd r).rest).taken) := by
  rw [blockLines.eq_def]
  simp [ended, inner]

theorem stable_blockLines (depth : Nat) : Stable (blockLines depth) := by
  intro r
  induction length : r.length using Nat.strongRecOn generalizing r depth with
  | ind n ih =>
  by_cases ended : atLineEnd r = true
  · have filled := taken_lineEnd_ne ended
    have lines (s : List Char) : (lineEnd ((lineEnd r).taken ++ s)).taken ≠ [] := by
      rw [lineEnd_append ended]
      exact filled
    intro r' padded
    by_cases closed : depthAfter depth (lineBody (lineEnd r).rest).taken = 0
    · rw [blockLines_last filled closed] at padded ⊢
      have line := stable_lineBody _ r' padded
      simp only [Split.prepend, List.append_assoc]
      rw [blockLines_last (lines _)]
      all_goals simp only [lineEnd_append ended, line]
      · rfl
      · exact closed
    · rw [blockLines_next filled closed] at padded ⊢
      have further := blockLines_whole (depthAfter depth (lineBody (lineEnd r).rest).taken)
        (lineBody (lineEnd r).rest).rest
      have shorter : (lineBody (lineEnd r).rest).rest.length < n := by
        have total := congrArg List.length (lineEnd_whole r)
        have bound := Split.length_rest_le (lineBody_whole (lineEnd r).rest)
        have positive := List.length_pos_iff.mpr filled
        simp only [Split.whole, List.length_append] at total
        omega
      have behind := ih _ shorter _ _ rfl r' padded
      have line := stable_lineBody (lineEnd r).rest _ (Split.padded_append further padded)
      simp only [Split.prepend, List.append_assoc]
      rw [blockLines_next (lines _)]
      all_goals simp only [lineEnd_append ended, line]
      · rw [behind]
        simp [Split.prepend]
      · exact closed
  · rw [Bool.not_eq_true] at ended
    apply StableAt.stop (blockLines_stop ended)
    intro s padded
    exact blockLines_stop (by rw [atLineEnd_padded padded, ended])

theorem stable_blockRest : Stable blockRest :=
  stable_lineBody.andThen (stable_blockLines 1) (blockLines_whole 1)

end Scan

end MatlabOutline
