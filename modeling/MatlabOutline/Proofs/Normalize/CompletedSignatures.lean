import Mathlib.Data.List.TakeWhile
import MatlabOutline.Proofs.Lexing.OneLine
import MatlabOutline.Proofs.Normalize.ParameterLists

/-!
Completed signatures. Main statement: completing puts an empty parameter list behind each declared
name that lacks one, as two tokens of its line, and changes no other token; so nothing is left to
complete (`completeSignatures_tokens`).
-/

namespace MatlabOutline

/-- The number of declared names that lack a parameter list. -/
def lackingLists : List Token → Nat
  | [] => 0
  | t :: r => (if t.kind == .nameFunction && !startsParameters r then 1 else 0) + lackingLists r

theorem signatureTexts_of_listed {ts : List Token} (listed : lackingLists ts = 0) :
    String.join (signatureTexts ts) = Token.concat ts := by
  induction ts with
  | nil => rfl
  | cons t ts ih =>
    rw [lackingLists] at listed
    split at listed
    · omega
    · next kept =>
      rw [signatureTexts, if_neg kept, String.join_cons, ih (by omega), Token.concat_cons]

theorem lackingLists_eq_zero_iff (ts : List Token) :
    lackingLists ts = 0 ↔
      ∀ before t after, ts = before ++ t :: after → t.kind = .nameFunction → startsParameters after = true := by
  induction ts with
  | nil => simp [lackingLists]
  | cons u ts ih =>
    rw [lackingLists, Nat.add_eq_zero_iff, ih]
    constructor
    · rintro ⟨first, further⟩ before t after cut declared
      rcases before with _ | ⟨v, before⟩
      · obtain ⟨rfl, rfl⟩ := List.cons.inj cut
        simpa [declared] using first
      · obtain ⟨_, rest⟩ := List.cons.inj cut
        exact further before t after rest declared
    · intro listed
      refine ⟨?_, fun before t after cut => listed (u :: before) t after (by rw [cut, List.cons_append])⟩
      by_cases declared : u.kind = .nameFunction
      · simp [listed [] u ts rfl declared]
      · simp [declared]

theorem takesList_withLists (xs : List (TokenKind × List Char)) : takesList (withLists xs) = takesList xs := by
  induction xs with
  | nil => rfl
  | cons x xs ih =>
    have first : withLists (x :: xs) = x :: (withLists (x :: xs)).tail := by
      rw [withLists]
      split <;> rfl
    by_cases blank : x.1 = .whitespace
    · have kept : withLists (x :: xs) = x :: withLists xs := by simp [withLists, blank]
      rw [kept]
      simpa [takesList, blank] using ih
    · rw [first]
      simp [takesList, blank]

/-- No declared name lacks its list once the lists are put in. -/
theorem lackingLists_withLists (line : Nat) (xs : List (TokenKind × List Char)) :
    lackingLists (Token.place line (withLists xs)) = 0 := by
  induction xs generalizing line with
  | nil => rfl
  | cons x xs ih =>
    rw [withLists]
    split
    · simp only [Token.place, lackingLists, ih]
      simp [startsParameters, Token.isWhitespace, Token.isPunct, Token.is]
    · next kept =>
      simp only [Token.place, lackingLists, ih, startsParameters_place, takesList_withLists]
      simpa using kept

namespace Token

/-- The first token that is not white space. -/
def nextSolid (ts : List Token) : Option Token :=
  ts.find? (!·.isWhitespace)

/-- The tokens with `(` and `)` right behind each declared name that no parameter list follows. -/
def withEmptyLists : List Token → List Token
  | [] => []
  | t :: r =>
    if t.kind = .nameFunction ∧ (nextSolid r).any (·.isPunct "(") = false then
      t :: ⟨.punctuation, "(", t.line⟩ :: ⟨.punctuation, ")", t.line⟩ :: withEmptyLists r
    else t :: withEmptyLists r

theorem startsParameters_eq (ts : List Token) :
    startsParameters ts = (nextSolid ts).any (·.isPunct "(") := by
  rw [startsParameters, nextSolid, List.find?_not_eq_head?_dropWhile]

/-- The lists stand on the lines of the names before them. -/
theorem place_withLists {line : Nat} {xs : List (TokenKind × List Char)}
    (within : ∀ t ∈ place line xs, t.kind = .nameFunction → Text.feeds t.text.toList = 0) :
    place line (withLists xs) = withEmptyLists (place line xs) := by
  induction xs generalizing line with
  | nil => rfl
  | cons x xs ih =>
    obtain ⟨first, further⟩ := List.forall_mem_cons.mp within
    have rest := ih further
    have lacks : (x.1 == .nameFunction && !takesList xs) = true ↔
        x.1 = .nameFunction ∧
          (nextSolid (place (line + Text.feeds x.2) xs)).any (·.isPunct "(") = false := by
      rw [← startsParameters_eq, startsParameters_place]
      simp
    rw [withLists, place, withEmptyLists, ← rest]
    by_cases declared : (x.1 == .nameFunction && !takesList xs) = true
    · have line' : Text.feeds x.2 = 0 := by simpa using first (lacks.mp declared).1
      have marks : Text.feeds ['('] = 0 ∧ Text.feeds [')'] = 0 := by decide
      rw [if_pos declared, if_pos (lacks.mp declared)]
      simp only [place, line', marks, Nat.add_zero]
    · rw [if_neg declared, if_neg (mt lacks.mpr declared), place]

end Token

theorem lackingLists_completeSignatures (code : String) :
    lackingLists (tokenize (completeSignatures code)) = 0 := by
  rw [tokenize_completeSignatures]
  exact lackingLists_withLists 1 _

theorem completeSignatures_of_listed {code : String} (listed : lackingLists (tokenize code) = 0) :
    completeSignatures code = code := by
  rw [completeSignatures, signatureTexts_of_listed listed, concat_tokenize]

/-- Completing signatures adds a list behind each declared name that lacks one and changes no other
token. Then every declared name has its list, and completing again changes nothing. -/
theorem completeSignatures_tokens (code : String) :
    tokenize (completeSignatures code) = Token.withEmptyLists (tokenize code) ∧
      (∀ before t after, tokenize (completeSignatures code) = before ++ t :: after →
        t.kind = .nameFunction → (Token.nextSolid after).any (·.isPunct "(") = true) ∧
      completeSignatures (completeSignatures code) = completeSignatures code := by
  have listed := lackingLists_completeSignatures code
  refine ⟨?_, ?_, completeSignatures_of_listed listed⟩
  · rw [tokenize_completeSignatures, tokenize]
    refine Token.place_withLists fun t member declared => ?_
    refine @feeds_of_plain code t member ?_ ?_
    · simp [Token.isNewline, declared]
    · simp [Token.isRemark, declared]
  · intro before t after cut declared
    rw [← Token.startsParameters_eq]
    exact (lackingLists_eq_zero_iff _).mp listed before t after cut declared

end MatlabOutline
