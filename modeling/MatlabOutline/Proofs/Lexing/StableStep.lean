import MatlabOutline.Proofs.Lexing.LineScanners
import MatlabOutline.Proofs.Lexing.Numerals

/-!
A lexing step does not change when the text behind its lexeme is replaced by one that reads alike.
-/

namespace MatlabOutline

namespace Scan

theorem spaces_padded {r r' : List Char} (padded : Padded r r') :
    Padded (spaces r).rest (spaces r').rest := by
  induction padded with
  | nil => exact .nil
  | line r r' => exact .line r r'
  | @cons c r r' rest ih =>
    rw [spaces_cons, spaces_cons, atLineEnd_padded (.cons c rest)]
    split
    · exact .cons c rest
    · split
      · exact ih
      · exact .cons c rest
  | @list c r r' ident short rest _ =>
    have blank := not_isBlank_of_isIdentRest c ident
    rw [spaces_cons, spaces_cons]
    simp only [blank, Bool.false_eq_true, if_false, ite_self]
    exact .list ident short rest

/-- An `=` that is no comparison comes first. -/
def startsAssignment (r : List Char) : Bool :=
  r.head? == some '=' && r.tail.head? != some '='

theorem startsAssignment_padded {r r' : List Char} (padded : Padded r r') :
    startsAssignment r' = startsAssignment r := by
  cases padded with
  | nil => rfl
  | line => rfl
  | cons c rest => simp [startsAssignment, rest.head?_eq]
  | @list c r r' ident _ _ =>
    have mark : (c == '=') = false := beq_false_of_ne (ne_of_isIdentRest ident (by decide))
    simp [startsAssignment, mark]

theorem endsBlockWord_eq (r : List Char) :
    endsBlockWord r = (!startsAssignment (spaces r).rest && r.head?.all fun c =>
      isBlank c || c == '(' || c == '%' || c == ';' || c == ',') := by
  rw [endsBlockWord]
  congr 2
  generalize (spaces r).rest = s
  rcases s with _ | ⟨d, s⟩
  · rfl
  by_cases mark : d = '='
  · subst mark
    rcases s with _ | ⟨e, s⟩
    · rfl
    · by_cases second : e = '=' <;> simp [startsAssignment, second]
  · simp [startsAssignment, mark]

theorem endsBlockWord_padded {r r' : List Char} (padded : Padded r r') :
    endsBlockWord r' = endsBlockWord r := by
  rw [endsBlockWord_eq, endsBlockWord_eq, startsAssignment_padded (spaces_padded padded),
    padded.head?_eq]

/-- Whether a block comment opens is decided by its line. -/
theorem opensBlockComment_eq (r : List Char) :
    opensBlockComment r =
      ((lineBody r).taken.head? == some '\x7b' && Text.allBlank (lineBody r).taken.tail) := by
  rcases r with _ | ⟨c, r⟩
  · rfl
  by_cases brace : c = '\x7b'
  · subst brace
    have going : atLineEnd ('\x7b' :: r) = false := by simp [atLineEnd]
    rw [lineBody_cons, going]
    simp [opensBlockComment, Split.push]
  · have head : (lineBody (c :: r)).taken.head? ≠ some '\x7b' := by
      rw [lineBody_cons]
      split
      · simp
      · simp [Split.push, brace]
    rw [beq_false_of_ne head, opensBlockComment]
    · rfl
    · intro s same
      exact brace (List.cons.inj same).1

end Scan

theorem not_isDigit_of_isIdentStart {c : Char} (letter : isIdentStart c = true) : c.isDigit = false := by
  delta isIdentStart Char.isAlpha Char.isUpper Char.isLower at letter
  delta Char.isDigit
  simp only [Bool.or_eq_true, Bool.and_eq_true, decide_eq_true_eq, UInt32.le_iff_toNat_le] at letter
  simp only [Bool.and_eq_false_iff, decide_eq_false_iff_not, UInt32.le_iff_toNat_le]
  simp at letter ⊢
  omega

/-- The step with another text behind its lexeme. -/
def LexStep.withRest (s : LexStep) (r : List Char) : LexStep :=
  { s with split := ⟨s.split.taken, r⟩ }

namespace Lexer

open Scan

/-- On the text the reader reads the same lexeme before any other rest that reads alike. After a
keyword that begins a signature this takes one more look: whether that has outputs. -/
def StableAt (f : List Char → LexStep) (r : List Char) : Prop :=
  ∀ r', Padded (f r).split.rest r' →
    ((f r).kind = .keyword → (f r).next.signature ≠ .none →
      signatureHasOutputs 0 r' = signatureHasOutputs 0 (f r).split.rest) →
    f ((f r).split.taken ++ r') = (f r).withRest r'

theorem stableAt_scan {f : List Char → Split} (stable : Stable f) (kind : TokenKind)
    (next : LexState) (r : List Char) : StableAt (fun r => ⟨kind, f r, next⟩) r := by
  intro r' padded _
  simp only [LexStep.withRest, stable r r' padded]

theorem stable_nothing : Stable fun r => ⟨[], r⟩ :=
  fun _ _ _ => rfl

theorem stable_optional (second : Option Char) : Stable (optional second) := by
  intro r
  rcases r with _ | ⟨c, r⟩
  · exact .nil rfl
  by_cases taken : second = some c
  · apply StableAt.push (g := fun r => ⟨[], r⟩) rfl (by simp [optional, taken, Split.push])
    · intro s _
      simp [optional, taken, Split.push]
    · exact fun _ _ => rfl
  · apply StableAt.stop (by simp [optional, taken])
    intro s padded
    rcases s with _ | ⟨d, s⟩
    · rfl
    obtain rfl : d = c := by simpa using padded.head?_eq
    simp [optional, taken]

theorem dot_number {st : LexState} {r : List Char} (digit : r.head?.any Char.isDigit = true) :
    dot st r = ⟨.number, numberRest '.' r, st.operand⟩ := by
  rcases r with _ | ⟨c, r⟩
  · simp at digit
  have digit : c.isDigit = true := by simpa using digit
  rw [dot]
  · simp [digit]
  · rintro s rfl
    exact absurd digit (by decide)
  · rintro rfl
    exact absurd digit (by decide)

theorem dot_punctuation {st : LexState} {r : List Char} (free : takesPoint r = false)
    (digit : r.head?.any Char.isDigit = false) :
    dot st r = ⟨.punctuation, ⟨[], r⟩, { st.operand with afterDot := true }⟩ := by
  rcases r with _ | ⟨c, r⟩
  · rfl
  have digit : c.isDigit = false := by simpa using digit
  rw [dot]
  · simp_all [takesPoint]
  · rintro s rfl rfl
    simp [takesPoint] at free
  · rintro rfl
    simp [takesPoint] at free

theorem dot_marker (st : LexState) (r : List Char) :
    dot st ('.' :: '.' :: r) = ⟨.comment, ((lineBody r).push '.').push '.', st.plain⟩ := by
  have body : lineBody ('.' :: '.' :: r) = ((lineBody r).push '.').push '.' := by
    simp [lineBody]
  rw [dot, body]

theorem stableAt_dot (st : LexState) (r : List Char) : StableAt (dot st) r := by
  intro r' padded _
  have whole : Padded r ((dot st r).split.taken ++ r') := by
    conv => lhs; rw [← dot_whole st r]
    exact padded.append _
  by_cases digit : r.head?.any Char.isDigit = true
  · have digit' := digit
    rw [← whole.head?_eq] at digit'
    rw [dot_number digit']
    rw [dot_number digit] at padded ⊢
    simp only [LexStep.withRest]
    rw [stable_numberRest '.' r r' padded]
  · rw [Bool.not_eq_true] at digit
    by_cases free : takesPoint r = true
    · rcases r with _ | ⟨c, r⟩
      · simp [takesPoint] at free
      simp only [takesPoint, Bool.or_eq_true, Bool.and_eq_true, beq_iff_eq] at free
      rcases free with mark | ⟨rfl, second⟩
      · have cases : c = '*' ∨ c = '/' ∨ c = '\\' ∨ c = '^' ∨ c = '\'' := by simpa using mark
        rcases cases with rfl | rfl | rfl | rfl | rfl <;> rfl
      · rcases r with _ | ⟨d, r⟩
        · simp at second
        obtain rfl : d = '.' := by simpa using second
        rw [dot_marker] at padded ⊢
        have line := stable_lineBody r r' padded
        simp only [Split.push, List.cons_append, LexStep.withRest]
        rw [dot_marker, line]
        rfl
    · rw [Bool.not_eq_true] at free
      rw [dot_punctuation free digit] at padded whole ⊢
      rw [List.nil_append, dot_punctuation]
      · rfl
      · rw [takesPoint_padded padded, free]
      · rw [padded.head?_eq, digit]

/-- A comment, which is a block comment only at the start of a line. -/
def comment (st : LexState) (r : List Char) : LexStep :=
  if st.lineStart && opensBlockComment r then ⟨.comment, blockRest r, st.plain⟩
  else ⟨.comment, lineBody r, st.plain⟩

theorem stableAt_comment (st : LexState) (r : List Char) : StableAt (comment st) r := by
  intro r' padded _
  by_cases block : (st.lineStart && opensBlockComment r) = true
  · have here : comment st r = ⟨.comment, blockRest r, st.plain⟩ := if_pos block
    rw [here] at padded ⊢
    have further := blockLines_whole 1 (lineBody r).rest
    have line := stable_lineBody r _ (by
      conv => lhs; rw [← further]
      exact Padded.append _ padded)
    have same : opensBlockComment ((blockRest r).taken ++ r') = opensBlockComment r := by
      rw [opensBlockComment_eq, opensBlockComment_eq, blockRest, Split.andThen, Split.prepend,
        List.append_assoc, line]
    rw [comment, same, if_pos block, stable_blockRest r r' padded]
    rfl
  · have here : comment st r = ⟨.comment, lineBody r, st.plain⟩ := if_neg block
    rw [here] at padded ⊢
    have line := stable_lineBody r r' padded
    have same : opensBlockComment ((lineBody r).taken ++ r') = opensBlockComment r := by
      rw [opensBlockComment_eq, opensBlockComment_eq, line]
    rw [comment, same, if_neg block, line]
    rfl

theorem wordKind_padded {st : LexState} {spelled : String} {r r' : List Char} (padded : Padded r r') :
    wordKind st spelled r' = wordKind st spelled r := by
  rw [wordKind, wordKind, endsBlockWord_padded padded]

theorem signatureAfter_congr {st : LexState} {spelled : String} {r r' : List Char}
    (same : wordKind st spelled r = .keyword → signatureAfter spelled r ≠ .none →
      signatureHasOutputs 0 r' = signatureHasOutputs 0 r) :
    signatureAfter spelled r' = signatureAfter spelled r := by
  by_cases declares : spelled = "function"
  · have reserved : wordKind st spelled r = .keyword := by
      rw [wordKind, declares, if_pos (by decide)]
    have begun : signatureAfter spelled r ≠ .none := by
      rw [signatureAfter, declares, if_pos (by decide)]
      split <;> simp
    rw [signatureAfter, signatureAfter, same reserved begun]
  · simp [signatureAfter, declares]

theorem step_of_letter {c : Char} (letter : isIdentStart c = true) (st : LexState) (r : List Char) :
    step st c r = word st c r := by
  have ident := isIdentRest_of_isIdentStart c letter
  have away {d : Char} (other : isIdentRest d = false) : (c == d) = false :=
    beq_false_of_ne (ne_of_isIdentRest ident other)
  have digit := not_isDigit_of_isIdentStart letter
  simp [step, away (d := '\n') (by decide), away (d := '\r') (by decide), away (d := '%') (by decide),
    away (d := '.') (by decide), away (d := '\'') (by decide), away (d := '"') (by decide),
    not_isBlank_of_isIdentRest c ident, digit, letter]

section Word

variable {st : LexState}

theorem word_field (field : st.afterDot = true) (c : Char) (r : List Char) :
    word st c r = ⟨.name, run isIdentRest r, st.operand⟩ := by
  simp [word, field]

theorem word_declared (field : st.afterDot = false) (part : st.signature = .name) (c : Char)
    (r : List Char) :
    word st c r = ⟨.nameFunction, (run isIdentRest r).andThen dottedRest,
      { st.operand with signature := .none }⟩ := by
  simp [word, field, part]

theorem word_output (field : st.afterDot = false) (part : st.signature = .outputs) (c : Char)
    (r : List Char) : word st c r = ⟨.name, run isIdentRest r, st.operand⟩ := by
  simp [word, field, part]

theorem word_plain (field : st.afterDot = false) (part : st.signature = .none) (c : Char)
    (r : List Char) :
    word st c r =
      ⟨wordKind st (String.ofList (c :: (run isIdentRest r).taken)) (run isIdentRest r).rest,
        run isIdentRest r,
        { st.operand with
          signature := signatureAfter (String.ofList (c :: (run isIdentRest r).taken))
            (run isIdentRest r).rest }⟩ := by
  simp [word, field, part]

theorem stableAt_word (st : LexState) (c : Char) (r : List Char) : StableAt (word st c) r := by
  intro r' padded signature
  have ident := stable_run isIdentRest
  have dotted := ident.andThen stable_dottedRest dottedRest_whole
  by_cases field : st.afterDot = true
  · simp only [word_field field, LexStep.withRest] at padded ⊢
    rw [ident r r' padded]
  rw [Bool.not_eq_true] at field
  cases part : st.signature with
  | name =>
    simp only [word_declared field part, LexStep.withRest] at padded ⊢
    have read := dotted r r' padded
    simp only at read
    rw [read]
  | outputs =>
    simp only [word_output field part, LexStep.withRest] at padded ⊢
    rw [ident r r' padded]
  | none =>
    simp only [word_plain field part, LexStep.withRest] at padded signature ⊢
    rw [ident r r' padded, wordKind_padded padded, signatureAfter_congr signature]

end Word

/-- A lexeme that is neither spacing nor a comment. -/
def code (st : LexState) (c : Char) (r : List Char) : LexStep :=
  if c == '.' then dot st r
  else if c == '\'' && st.afterOperand then ⟨.operator, ⟨[], r⟩, st.operand⟩
  else if c == '\'' || c == '"' then ⟨.string, stringBody c r, st.plain⟩
  else if c.isDigit then ⟨.number, numberRest c r, st.operand⟩
  else if isIdentStart c then word st c r
  else if c == ')' || c == ']' || c == '\x7d' then ⟨.punctuation, ⟨[], r⟩, st.operand⟩
  else if c == '(' || c == '[' || c == '\x7b' || c == ',' || c == ';' then
    ⟨.punctuation, ⟨[], r⟩, st.plain⟩
  else if isOperatorStart c then operator st c r
  else ⟨.text, ⟨[], r⟩, st.plain⟩

theorem stableAt_code (st : LexState) (c : Char) (r : List Char) : StableAt (code st c) r := by
  unfold code
  split
  · exact stableAt_dot st r
  split
  · exact stableAt_scan stable_nothing _ _ r
  split
  · exact stableAt_scan (stable_stringBody c) _ _ r
  split
  · exact stableAt_scan (stable_numberRest c) _ _ r
  split
  · exact stableAt_word st c r
  split
  · exact stableAt_scan stable_nothing _ _ r
  split
  · exact stableAt_scan stable_nothing _ _ r
  split
  · exact stableAt_scan (stable_optional _) _ _ r
  · exact stableAt_scan stable_nothing _ _ r

/-- A step reads the same lexeme if what follows it reads alike. -/
theorem stableAt_step (st : LexState) (c : Char) (r : List Char) : StableAt (step st c) r := by
  -- Which reader goes on depends on the first character and on the head of the rest.
  have via {f : List Char → LexStep} (stable : StableAt f r)
      (here : ∀ s, s.head? = r.head? → step st c s = f s) : StableAt (step st c) r := by
    intro r' padded signature
    have whole : Padded r ((step st c r).split.taken ++ r') := by
      conv => lhs; rw [← step_whole st c r]
      exact padded.append _
    rw [here _ whole.head?_eq]
    rw [here r rfl] at padded signature ⊢
    exact stable r' padded signature
  by_cases feed : (c == '\n') = true
  · exact via (stableAt_scan stable_nothing .newline .initial r) fun s _ => by simp [step, feed]
  by_cases carriage : (c == '\r' && r.head? == some '\n') = true
  · apply via (f := fun s => ⟨.newline, ⟨['\n'], s.tail⟩, .initial⟩)
    · intro s same
      rw [step, if_neg feed, same, if_pos carriage]
    · exact fun _ _ _ => rfl
  by_cases blank : isBlank c = true
  · apply via (stableAt_scan stable_spaces .whitespace st.blank r)
    intro s same
    rw [step, if_neg feed, same, if_neg carriage, if_pos blank]
  by_cases remark : (c == '%') = true
  · apply via (stableAt_comment st r)
    intro s same
    rw [step, if_neg feed, same, if_neg carriage, if_neg blank, if_pos remark]
    rfl
  -- No later branch looks at the rest.
  have code (s : List Char) (same : s.head? = r.head?) : step st c s = code st c s := by
    rw [step, if_neg feed, same, if_neg carriage, if_neg blank, if_neg remark]
    rfl
  apply via _ code
  exact stableAt_code st c r

end Lexer

end MatlabOutline
