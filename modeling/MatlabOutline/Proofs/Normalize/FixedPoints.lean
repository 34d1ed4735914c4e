import MatlabOutline.Normalize.Basic
import MatlabOutline.Proofs.Normalize.CompletedSignatures
import MatlabOutline.Proofs.Normalize.StubLines
import MatlabOutline.Proofs.Text.Trimming

/-!
Texts that normalizing leaves as they are. Main statement: normalizing again changes nothing exactly
when nothing is left to join, to complete or to expand (`normalize_idempotent_iff`). Each pass that
finds work changes the number of some letter that no other pass touches.
-/

namespace MatlabOutline

/-- Nothing is left to join, to complete or to expand. -/
structure IsNormal (code : String) : Prop where
  unbroken : ∀ t ∈ tokenize code, t.isContinuation = false
  listed : ∀ before t after, tokenize code = before ++ t :: after → t.kind = .nameFunction →
    startsParameters after = true
  settled : Settled {} (tokenLines (tokenize code))

/-- How often a character occurs in a text. -/
def occurrences (d : Char) (s : String) : Nat :=
  s.toList.count d

@[simp] theorem occurrences_append (d : Char) (s t : String) :
    occurrences d (s ++ t) = occurrences d s + occurrences d t := by
  simp [occurrences]

@[simp] theorem occurrences_ofList (d : Char) (cs : List Char) :
    occurrences d (String.ofList cs) = cs.count d := by
  simp [occurrences]

section Join

theorem dropContinuations_of_unbroken {ts : List Token} (unbroken : ∀ t ∈ ts, t.isContinuation = false) :
    dropContinuations false ts = ts := by
  induction ts with
  | nil => rfl
  | cons t ts ih =>
    simp only [List.forall_mem_cons] at unbroken
    simp [dropContinuations, unbroken.1, ih unbroken.2]

/-- A text without continuation markers is joined as it is. -/
theorem joinContinuedLines_of_unbroken {code : String}
    (unbroken : ∀ t ∈ tokenize code, t.isContinuation = false) : joinContinuedLines code = code := by
  rw [joinContinuedLines, dropContinuations_of_unbroken unbroken, concat_tokenize]

theorem dots_of_isContinuation {t : Token} (marker : t.isContinuation = true) :
    0 < occurrences '.' t.text := by
  simp only [Token.isContinuation, Bool.and_eq_true, List.isPrefixOf_iff_prefix] at marker
  exact List.count_pos_iff.mpr (marker.2.subset (by simp))

theorem occurrences_dropContinuations_le (d : Char) (joined : Bool) (ts : List Token) :
    occurrences d (Token.concat (dropContinuations joined ts)) ≤ occurrences d (Token.concat ts) := by
  fun_induction dropContinuations joined ts with
  | case1 => exact Nat.le_refl _
  | case2 joined t r marker ih =>
    simp only [Token.concat_cons, occurrences_append]
    omega
  | case3 joined t r _ newline ih =>
    simp only [Token.concat_cons, occurrences_append]
    omega
  | case4 joined t r _ _ ih =>
    simp only [Token.concat_cons, occurrences_append]
    omega

/-- A marker takes its dots away. -/
theorem dots_dropContinuations_lt (joined : Bool) {ts : List Token}
    (broken : ∃ t ∈ ts, t.isContinuation = true) :
    occurrences '.' (Token.concat (dropContinuations joined ts)) < occurrences '.' (Token.concat ts) := by
  fun_induction dropContinuations joined ts with
  | case1 => simp at broken
  | case2 joined t r marker _ =>
    have dots := dots_of_isContinuation marker
    have rest := occurrences_dropContinuations_le '.' true r
    simp only [Token.concat_cons, occurrences_append]
    omega
  | case3 joined t r other newline ih =>
    have later : ∃ u ∈ r, u.isContinuation = true := by simpa [other] using broken
    have rest := ih later
    simp only [Token.concat_cons, occurrences_append]
    omega
  | case4 joined t r other _ ih =>
    have later : ∃ u ∈ r, u.isContinuation = true := by simpa [other] using broken
    have rest := ih later
    simp only [Token.concat_cons, occurrences_append]
    omega

end Join

theorem occurrences_signatureTexts (d : Char) (ts : List Token) :
    occurrences d (String.join (signatureTexts ts)) =
      occurrences d (Token.concat ts) + lackingLists ts * occurrences d "()" := by
  induction ts with
  | nil => simp [signatureTexts, lackingLists, occurrences]
  | cons t ts ih =>
    rw [signatureTexts, lackingLists]
    split
    · simp only [String.join_cons, occurrences_append, ih, Token.concat_cons, Nat.add_mul]
      omega
    · simp only [String.join_cons, occurrences_append, ih, Token.concat_cons, Nat.zero_add]
      omega

theorem occurrences_completeSignatures (d : Char) (code : String) :
    occurrences d (completeSignatures code) =
      occurrences d code + lackingLists (tokenize code) * occurrences d "()" := by
  rw [completeSignatures, occurrences_signatureTexts, concat_tokenize]

/-- What expanding a declaration puts in. -/
def stubFrame : String :=
  "function ; end"

/-- A character that trimming a declaration never takes away. -/
def isSolid (d : Char) : Bool :=
  !isBlank d && d != ';'

theorem occurrences_trimDeclaration {d : Char} (solid : isSolid d = true) (s : String) :
    occurrences d (String.ofList (trimDeclaration s.toList)) = occurrences d s := by
  simp only [isSolid, Bool.and_eq_true, Bool.not_eq_true', bne_iff_ne] at solid
  rw [occurrences_ofList, trimDeclaration, Text.trimEnd, Text.trimEnd, Text.count_trimEndBy solid.1,
    Text.count_trimEndBy (by simpa using solid.2), Text.count_trimEndBy solid.1, occurrences]

theorem occurrences_expandStub {d : Char} (solid : isSolid d = true) (line : List Token) :
    occurrences d (expandStub line) = occurrences d (Token.concat line) + occurrences d stubFrame := by
  have margin : Token.concat (line.takeWhile Token.isWhitespace) ++
      Token.concat (line.dropWhile Token.isWhitespace) = Token.concat line := by
    rw [← Token.concat_append, List.takeWhile_append_dropWhile]
  have ending (code : List Token) : Token.concat (code.takeWhile (!endsDeclaration ·)) ++
      Token.concat (code.dropWhile (!endsDeclaration ·)) = Token.concat code := by
    rw [← Token.concat_append, List.takeWhile_append_dropWhile]
  have gap (b : Bool) : occurrences d (if b then " " else "") = 0 := by
    have space : ' ' ≠ d := by
      rintro rfl
      simp [isSolid, isBlank] at solid
    cases b
    · rfl
    · exact List.count_eq_zero.mpr (by simpa using space.symm)
  have frame : occurrences d stubFrame = occurrences d "function " + occurrences d "; end" := by
    rw [← occurrences_append]
    rfl
  rw [frame, ← margin, ← ending (line.dropWhile Token.isWhitespace), expandStub]
  simp only [occurrences_append, occurrences_trimDeclaration solid, gap]
  omega

/-- The number of lines that expanding rewrites. -/
def stubCount (n : Nesting) : List (List Token) → Nat
  | [] => 0
  | line :: r =>
    if n.inMethods && isStubLine line then stubCount n r + 1
    else stubCount (line.foldl Nesting.step n) r

theorem settled_iff_stubCount (n : Nesting) (lines : List (List Token)) :
    Settled n lines ↔ stubCount n lines = 0 := by
  induction lines generalizing n with
  | nil => simp [Settled, stubCount]
  | cons line lines ih =>
    rw [Settled, stubCount, ih]
    split
    · next stub => simp [stub]
    · next other =>
      rw [Bool.not_eq_true] at other
      simp [other]

theorem occurrences_expandLines {d : Char} (solid : isSolid d = true) (n : Nesting)
    (lines : List (List Token)) :
    occurrences d (String.join (expandLines n lines)) =
      occurrences d (Token.concat lines.flatten) + stubCount n lines * occurrences d stubFrame := by
  induction lines generalizing n with
  | nil => simp [expandLines, stubCount, occurrences]
  | cons line lines ih =>
    rw [expandLines, stubCount]
    split
    · simp only [String.join_cons, occurrences_append, ih, occurrences_expandStub solid, List.flatten_cons,
        Token.concat_append, Nat.add_mul]
      omega
    · simp only [String.join_cons, occurrences_append, ih, List.flatten_cons, Token.concat_append]
      omega

theorem occurrences_expandStubs {d : Char} (solid : isSolid d = true) (code : String) :
    occurrences d (expandStubs code) =
      occurrences d code + stubCount {} (tokenLines (tokenize code)) * occurrences d stubFrame := by
  rw [expandStubs, occurrences_expandLines solid, flatten_tokenLines, concat_tokenize]

/-- A text that normalizing leaves as it is has nothing left to do. -/
theorem isNormal_of_fixed {code : String} (fixed : normalize code = code) : IsNormal code := by
  have dots : occurrences '.' (normalize code) = occurrences '.' (joinContinuedLines code) := by
    rw [normalize, occurrences_expandStubs (by decide), occurrences_completeSignatures,
      show occurrences '.' stubFrame = 0 by decide, show occurrences '.' "()" = 0 by decide]
    omega
  have unbroken : ∀ t ∈ tokenize code, t.isContinuation = false := by
    intro t member
    cases marker : t.isContinuation with
    | false => rfl
    | true =>
      have fewer := dots_dropContinuations_lt false ⟨t, member, marker⟩
      rw [concat_tokenize, ← joinContinuedLines, ← dots, fixed] at fewer
      omega
  rw [normalize, joinContinuedLines_of_unbroken unbroken] at fixed
  have listed : lackingLists (tokenize code) = 0 := by
    have lists := congrArg (occurrences '(') fixed
    rw [occurrences_expandStubs (by decide), occurrences_completeSignatures,
      show occurrences '(' stubFrame = 0 by decide, show occurrences '(' "()" = 1 by decide] at lists
    omega
  rw [completeSignatures_of_listed listed] at fixed
  have settled : stubCount {} (tokenLines (tokenize code)) = 0 := by
    have words := congrArg (occurrences 'f') fixed
    rw [occurrences_expandStubs (by decide), show occurrences 'f' stubFrame = 1 by decide] at words
    omega
  exact ⟨unbroken, (lackingLists_eq_zero_iff _).mp listed, (settled_iff_stubCount _ _).mpr settled⟩

theorem IsNormal.fixed {code : String} (normal : IsNormal code) : normalize code = code := by
  have listed := (lackingLists_eq_zero_iff _).mpr normal.listed
  rw [normalize, joinContinuedLines_of_unbroken normal.unbroken, completeSignatures_of_listed listed,
    expandStubs_of_settled normal.settled]

/-- Whether a lexeme is a continuation marker. -/
def isMarker (x : TokenKind × List Char) : Bool :=
  x.1 == .comment && ['.', '.', '.'].isPrefixOf x.2

theorem unbroken_place (line : Nat) (xs : List (TokenKind × List Char)) :
    (∀ t ∈ Token.place line xs, t.isContinuation = false) ↔ ∀ x ∈ xs, isMarker x = false := by
  induction xs generalizing line with
  | nil => simp [Token.place]
  | cons x xs ih =>
    rw [Token.place, List.forall_mem_cons, List.forall_mem_cons, ih]
    simp [Token.isContinuation, isMarker]

theorem unbroken_withLists (xs : List (TokenKind × List Char)) :
    (∀ x ∈ withLists xs, isMarker x = false) ↔ ∀ x ∈ xs, isMarker x = false := by
  induction xs with
  | nil => rfl
  | cons x xs ih =>
    have opening : isMarker (.punctuation, ['(']) = false := rfl
    have closing : isMarker (.punctuation, [')']) = false := rfl
    rw [withLists, List.forall_mem_cons]
    split
    · rw [List.forall_mem_cons, List.forall_mem_cons, List.forall_mem_cons, ih]
      simp [opening, closing]
    · rw [List.forall_mem_cons, ih]

/-- Completing signatures neither makes nor removes continuation markers. -/
theorem unbroken_completeSignatures (code : String) :
    (∀ t ∈ tokenize (completeSignatures code), t.isContinuation = false) ↔
      ∀ t ∈ tokenize code, t.isContinuation = false := by
  rw [tokenize_completeSignatures, unbroken_place, unbroken_withLists, tokenize, unbroken_place]

/-- Normalizing again changes nothing exactly when the normal form has nothing left to join, to
complete or to expand. If no line declares a method without a body, that is when joining leaves no
continuation marker. -/
theorem normalize_idempotent_iff (code : String) :
    (normalize (normalize code) = normalize code ↔ IsNormal (normalize code)) ∧
      (Settled {} (tokenLines (tokenize (completeSignatures (joinContinuedLines code)))) →
        (normalize (normalize code) = normalize code ↔
          ∀ t ∈ tokenize (joinContinuedLines code), t.isContinuation = false)) := by
  have fixed : normalize (normalize code) = normalize code ↔ IsNormal (normalize code) :=
    ⟨isNormal_of_fixed, IsNormal.fixed⟩
  refine ⟨fixed, fun settled => fixed.trans ?_⟩
  rw [normalize, expandStubs_of_settled settled, ← unbroken_completeSignatures]
  refine ⟨IsNormal.unbroken, fun unbroken => ⟨unbroken, ?_, settled⟩⟩
  rw [← lackingLists_eq_zero_iff, tokenize_completeSignatures]
  exact lackingLists_withLists 1 _

/-- A continued signature without a parameter list is normalized once and for all. -/
theorem normalize_idempotent_joined :
    normalize (normalize "function ...\n f\nend\n") = normalize "function ...\n f\nend\n" := by
  refine ((normalize_idempotent_iff "function ...\n f\nend\n").2 ?_).mpr (by decide +kernel)
  rw [settled_iff_stubCount]
  decide +kernel

/-- An expanded declaration lacks its parameter list, which only the next run puts in. -/
theorem normalize_not_idempotent :
    normalize (normalize "classdef C\nmethods\ndraw\nend\nend\n") ≠
      normalize "classdef C\nmethods\ndraw\nend\nend\n" := by
  decide +kernel

end MatlabOutline
