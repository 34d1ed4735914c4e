import MatlabOutline.Proofs.Lexing.Writing
import MatlabOutline.Proofs.Normalize.ParameterLists

/-!
Signatures as the lexer reads them. The `function` keyword looks for outputs in what follows
(`Lexer.Leads.function`): for an `=` that no comment, semicolon, continuation marker or parameter list comes
before (`Scan.signatureHasOutputs_iff`). Words are read as outputs up to the `=` (`Lexer.Leads.output`,
`Lexer.Leads.assign`), and the next word is the declared name with all its parts (`Lexer.Leads.declared`).
-/

namespace MatlabOutline

namespace Text

theorem eq_of_splitAt {d : Char} {cs p : List Char} {ps : List (List Char)} (cut : splitAt d cs = p :: ps) :
    cs = p ++ ps.flatMap (d :: ·) := by
  induction cs generalizing p ps with
  | nil =>
    obtain ⟨rfl, rfl⟩ : p = [] ∧ ps = [] := by simpa [splitAt, eq_comm] using cut
    rfl
  | cons c cs ih =>
    obtain ⟨q, qs, rest⟩ := List.exists_cons_of_ne_nil (splitAt_ne_nil d cs)
    by_cases mark : c = d
    · obtain ⟨rfl, rfl⟩ : p = [] ∧ ps = q :: qs := by simpa [splitAt, mark, rest, eq_comm] using cut
      simp [mark, ih rest]
    · obtain ⟨rfl, rfl⟩ : p = c :: q ∧ ps = qs := by simpa [splitAt, mark, rest, eq_comm] using cut
      simp [ih rest]

end Text

/-- A dotted name is an identifier with further ones behind dots. -/
theorem exists_parts_of_isDottedChars {cs : List Char} (dotted : isDottedChars cs = true) :
    ∃ (p : List Char) (ps : List (List Char)), cs = p ++ ps.flatMap ('.' :: ·) ∧ isIdentifierChars p = true ∧
      ∀ q ∈ ps, isIdentifierChars q = true := by
  obtain ⟨p, ps, cut⟩ := List.exists_cons_of_ne_nil (Text.splitAt_ne_nil '.' cs)
  rw [isDottedChars, cut, List.all_cons, Bool.and_eq_true, List.all_eq_true] at dotted
  exact ⟨p, ps, Text.eq_of_splitAt cut, dotted.1, dotted.2⟩

namespace Scan

/-- What ends a dotted name. -/
def endsDotted (z : List Char) : Bool :=
  !(z.head?.any isIdentRest || startsPart z)

theorem dottedRest_parts {ps : List (List Char)} (parts : ∀ q ∈ ps, isIdentifierChars q = true) {z : List Char}
    (stop : endsDotted z = true) :
    dottedRest (ps.flatMap ('.' :: ·) ++ z) = ⟨ps.flatMap ('.' :: ·), z⟩ := by
  rw [endsDotted, Bool.not_eq_true', Bool.or_eq_false_iff] at stop
  induction ps with
  | nil => exact dottedRest_stop stop.2
  | cons q ps ih =>
    rw [List.forall_mem_cons] at parts
    rcases q with _ | ⟨c, cs⟩
    · simp [isIdentifierChars] at parts
    have word := parts.1
    rw [isIdentifierChars, Bool.and_eq_true] at word
    have behind : (ps.flatMap ('.' :: ·) ++ z).head?.any isIdentRest = false := by
      cases ps with
      | nil => exact stop.1
      | cons => simp; decide
    have run : run isIdentRest (c :: cs ++ (ps.flatMap ('.' :: ·) ++ z)) =
        ⟨c :: cs, ps.flatMap ('.' :: ·) ++ z⟩ :=
      run_of_head (by simp [isIdentRest_of_isIdentStart c word.1, word.2]) behind
    have whole : (('.' :: c :: cs) ++ ps.flatMap ('.' :: ·)) ++ z =
        '.' :: (c :: cs ++ (ps.flatMap ('.' :: ·) ++ z)) := by simp
    rw [List.flatMap_cons, whole, dottedRest_part (by simp [startsPart, word.1]), run, Split.andThen, ih parts.2]
    simp [Split.prepend, Split.push]

theorem signatureHasOutputs_word {w : List Char} (word : w.all isIdentRest = true) (depth : Nat) (r : List Char) :
    signatureHasOutputs depth (w ++ r) = signatureHasOutputs depth r := by
  induction w with
  | nil => rfl
  | cons c w ih =>
    rw [List.all_cons, Bool.and_eq_true] at word
    rw [List.cons_append, signatureHasOutputs_ident word.1, ih word.2]

theorem signatureHasOutputs_gap {w : List Char} (gap : Lexer.IsGap w) (depth : Nat) (r : List Char) :
    signatureHasOutputs depth (w ++ r) = signatureHasOutputs depth r := by
  induction w with
  | nil => rfl
  | cons c w ih =>
    obtain ⟨blank, line⟩ := gap c (by simp)
    have away {d : Char} (solid : isBlank d = false) : (c == d) = false := by
      rw [beq_eq_false_iff_ne]
      rintro rfl
      simp [solid] at blank
    rw [List.cons_append, ← ih gap.tail]
    simp [signatureHasOutputs, line, away (d := '%') (by decide), away (d := ';') (by decide),
      away (d := '.') (by decide), away (d := '[') (by decide), away (d := '\x7b') (by decide),
      away (d := ']') (by decide), away (d := '\x7d') (by decide), away (d := '(') (by decide),
      away (d := '=') (by decide)]

/-- The number of open brackets behind a character; a bracket that closes none is passed over. -/
def bracketStep (depth : Nat) (c : Char) : Nat :=
  if c == '[' || c == '\x7b' then depth + 1 else if c == ']' || c == '\x7d' then depth - 1 else depth

/-- Text at which the search for outputs does not end: no line end, comment or semicolon, no two dots, and
no parenthesis outside other brackets. -/
structure Passes (depth : Nat) (cs : List Char) : Prop where
  plain : ∀ c ∈ cs, c ≠ '\n' ∧ c ≠ '%' ∧ c ≠ ';'
  single : ¬ ['.', '.'] <:+: cs
  enclosed : ∀ p q, cs = p ++ '(' :: q → p.foldl bracketStep depth ≠ 0

/-- The search for outputs comes to an `=`. -/
def Assigns (depth : Nat) (cs : List Char) : Prop :=
  ∃ p q, cs = p ++ '=' :: q ∧ Passes depth p

/-- What ends the search for outputs without success, where `next` comes behind. -/
def endsSearch (depth : Nat) (c : Char) (next : Option Char) : Bool :=
  c == '\n' || c == '%' || c == ';' || (c == '.' && next == some '.') || (c == '(' && depth == 0)

theorem signatureHasOutputs_step (depth : Nat) (c : Char) (r : List Char) :
    signatureHasOutputs depth (c :: r) =
      if endsSearch depth c r.head? then false
      else if c == '=' && r.head? != some '=' then true else signatureHasOutputs (bracketStep depth c) r := by
  rw [signatureHasOutputs, endsSearch, bracketStep]
  by_cases opens : c = '[' ∨ c = '\x7b'
  · rcases opens with rfl | rfl <;> simp
  by_cases closes : c = ']' ∨ c = '\x7d'
  · rcases closes with rfl | rfl <;> simp
  rw [not_or] at opens closes
  simp only [beq_false_of_ne opens.1, beq_false_of_ne opens.2, beq_false_of_ne closes.1, beq_false_of_ne closes.2,
    Bool.or_self, Bool.false_eq_true, if_false]
  by_cases marker : (c == '.' && r.head? == some '.') = true
  · simp [marker]
  by_cases list : (c == '(' && depth == 0) = true
  · simp [marker, list]
  · simp [marker, list]

/-- A text at which the search does not end is one whose first character does not end it, before another. -/
theorem passes_cons_iff {depth : Nat} {c : Char} {p : List Char} (q : List Char) :
    Passes depth (c :: p) ↔
      endsSearch depth c (p ++ '=' :: q).head? = false ∧ Passes (bracketStep depth c) p := by
  have next : (p ++ '=' :: q).head? = some '.' ↔ p.head? = some '.' := by cases p <;> simp
  have ends : endsSearch depth c (p ++ '=' :: q).head? = false ↔
      (c ≠ '\n' ∧ c ≠ '%' ∧ c ≠ ';') ∧ ¬ (c = '.' ∧ p.head? = some '.') ∧ ¬ (c = '(' ∧ depth = 0) := by
    rw [← next]
    simp [endsSearch, and_assoc]
  have pair : ['.', '.'] <:+: c :: p ↔ c = '.' ∧ p.head? = some '.' ∨ ['.', '.'] <:+: p := by
    cases p with
    | nil => simp [List.infix_cons_iff]
    | cons d p => simp [List.infix_cons_iff, List.cons_prefix_cons, @eq_comm Char '.']
  constructor
  · intro passes
    have plain := List.forall_mem_cons.mp passes.plain
    have single := passes.single
    rw [pair, not_or] at single
    refine ⟨ends.mpr ⟨plain.1, single.1, ?_⟩, plain.2, single.2, fun p' q' cut => ?_⟩
    · rintro ⟨rfl, rfl⟩
      exact passes.enclosed [] p rfl rfl
    · exact passes.enclosed (c :: p') q' (by rw [cut, List.cons_append])
  · rintro ⟨going, rest⟩
    obtain ⟨plain, single, outer⟩ := ends.mp going
    refine ⟨List.forall_mem_cons.mpr ⟨plain, rest.plain⟩, ?_, fun p' q' cut => ?_⟩
    · rw [pair, not_or]
      exact ⟨single, rest.single⟩
    · rcases p' with _ | ⟨d, p'⟩
      · obtain ⟨rfl, -⟩ := List.cons.inj cut
        exact fun zero => outer ⟨rfl, zero⟩
      · obtain ⟨rfl, inner⟩ := List.cons.inj cut
        exact rest.enclosed p' q' inner

theorem Passes.nil (depth : Nat) : Passes depth [] :=
  ⟨by simp, by simp, by simp⟩

/-- The search for outputs has success just if it comes to an `=`, also to one of a comparison. -/
theorem signatureHasOutputs_iff (depth : Nat) (r : List Char) :
    signatureHasOutputs depth r = true ↔ Assigns depth r := by
  induction r generalizing depth with
  | nil => simp [signatureHasOutputs, Assigns]
  | cons c r ih =>
    constructor
    · intro found
      rw [signatureHasOutputs_step] at found
      split at found
      · simp at found
      next going =>
      by_cases first : c = '='
      · exact ⟨[], r, by rw [first, List.nil_append], .nil depth⟩
      · rw [if_neg (by simp [first]), ih] at found
        obtain ⟨p, q, rfl, passes⟩ := found
        exact ⟨c :: p, q, rfl, (passes_cons_iff q).mpr ⟨by simpa using going, passes⟩⟩
    · rintro ⟨p, q, cut, passes⟩
      rcases p with _ | ⟨d, p⟩
      · exact signatureHasOutputs_of_head (by rw [cut]; rfl) depth
      · rw [List.cons_append] at cut
        obtain ⟨rfl, rfl⟩ := List.cons.inj cut
        obtain ⟨going, rest⟩ := (passes_cons_iff q).mp passes
        rw [signatureHasOutputs_step, going, if_neg (by simp)]
        split
        · rfl
        · exact (ih _).mpr ⟨p, q, rfl, rest⟩

/-- A continuation marker ends the search like the end of the text. -/
theorem signatureHasOutputs_marker (depth : Nat) (p z : List Char) :
    signatureHasOutputs depth (p ++ '.' :: '.' :: z) = signatureHasOutputs depth p := by
  induction p generalizing depth with
  | nil => simp [signatureHasOutputs]
  | cons c p ih =>
    rw [List.cons_append, signatureHasOutputs_step, signatureHasOutputs_step, ih]
    rcases p with _ | ⟨d, p⟩
    · have nothing (d : Nat) : signatureHasOutputs d [] = false := rfl
      rw [nothing]
      by_cases point : c = '.' <;> simp [endsSearch, point]
    · rfl

end Scan

namespace Lexer

open Scan

/-- From one state the lexemes are read as they are written before `r`, and another state follows. -/
def Leads (st : LexState) (xs : List (TokenKind × List Char)) (next : LexState) (r : List Char) : Prop :=
  lexemes st (spelled xs ++ r) = xs ++ lexemes next r

namespace Leads

variable {st mid next : LexState} {xs ys : List (TokenKind × List Char)} {r : List Char}

theorem nil (st : LexState) (r : List Char) : Leads st [] st r :=
  rfl

theorem append (first : Leads st xs mid (spelled ys ++ r)) (second : Leads mid ys next r) :
    Leads st (xs ++ ys) next r := by
  have whole : spelled (xs ++ ys) ++ r = spelled xs ++ (spelled ys ++ r) := by simp [spelled]
  rw [Leads, whole, first, second, List.append_assoc]

theorem of_step {kind : TokenKind} {c : Char} {cs : List Char} (step : step st c (cs ++ r) = ⟨kind, ⟨cs, r⟩, next⟩) :
    Leads st [(kind, c :: cs)] next r := by
  simpa [Leads] using lexemes_of_step step

/-- The lexemes of a list in the line lead from a plain state to itself. -/
theorem of_reads (reads : Reads xs r) : Leads {} xs {} r :=
  reads

theorem gap {w : List Char} (gap : IsGap w) (filled : w ≠ []) (apart : NoBreak w r)
    (stop : spaces r = ⟨[], r⟩) (blank : st.blank = next) : Leads st [(.whitespace, w)] next r := by
  subst blank
  rcases w with _ | ⟨c, w⟩
  · exact absurd rfl filled
  · apply of_step
    rw [step_space (gap c (by simp)).1 (going_of_gap gap apart), spaces_gap gap.tail apart.tail, stop]
    simp [Split.prepend]

end Leads

/-- The `function` keyword begins a signature, and what follows tells whether it has outputs. -/
theorem Leads.function {st : LexState} (fresh : st.signature = .none) (field : st.afterDot = false) {r : List Char}
    (stop : r.head?.any isIdentRest = false) :
    Leads st [(.keyword, "function".toList)]
      { signature := if signatureHasOutputs 0 r then .outputs else .name, afterOperand := true } r := by
  have word : run isIdentRest ("unction".toList ++ r) = ⟨"unction".toList, r⟩ := run_of_head (by decide) stop
  have kind : wordKind st "function" r = .keyword := by
    rw [wordKind, if_pos (by decide)]
  rw [show "function".toList = 'f' :: "unction".toList from rfl]
  apply Leads.of_step
  rw [step_of_letter (by decide), word_plain field fresh, word]
  rw [show String.ofList ('f' :: "unction".toList) = "function" from rfl, kind]
  rfl

/-- While outputs are read every word is a name. -/
theorem Leads.output {st : LexState} (part : st.signature = .outputs) (field : st.afterDot = false) {w r : List Char}
    (word : isIdentifierChars w = true) (stop : r.head?.any isIdentRest = false) :
    Leads st [(.name, w)] { signature := .outputs, afterOperand := true } r := by
  rcases w with _ | ⟨c, cs⟩
  · simp [isIdentifierChars] at word
  rw [isIdentifierChars, Bool.and_eq_true] at word
  apply Leads.of_step
  rw [step_of_letter word.1, word_output field part, run_of_head word.2 stop, LexState.operand, part]

/-- The `=` behind the outputs announces the name. -/
theorem Leads.assign {st : LexState} (part : st.signature = .outputs) {r : List Char} (other : r.head? ≠ some '=') :
    Leads st [(.operator, ['='])] { signature := .name } r := by
  have single : optional (some '=') r = ⟨[], r⟩ := by
    rcases r with _ | ⟨d, r⟩
    · rfl
    · have away : some '=' ≠ some d := by simpa [eq_comm] using other
      rw [optional, if_neg away]
  have mark : step st '=' r = operator st '=' r := rfl
  apply Leads.of_step
  rw [List.nil_append, mark, operator, part, show operatorSecond '=' = some '=' from rfl, single]
  rfl

/-- The declared name is read whole. -/
theorem Leads.declared {st : LexState} (part : st.signature = .name) (field : st.afterDot = false) {d r : List Char}
    (dotted : isDottedChars d = true) (stop : endsDotted r = true) :
    Leads st [(.nameFunction, d)] { afterOperand := true } r := by
  obtain ⟨p, ps, rfl, word, parts⟩ := exists_parts_of_isDottedChars dotted
  rcases p with _ | ⟨c, cs⟩
  · simp [isIdentifierChars] at word
  rw [isIdentifierChars, Bool.and_eq_true] at word
  have behind : (ps.flatMap ('.' :: ·) ++ r).head?.any isIdentRest = false := by
    rw [endsDotted, Bool.not_eq_true', Bool.or_eq_false_iff] at stop
    cases ps with
    | nil => exact stop.1
    | cons => simp; decide
  rw [List.cons_append]
  apply Leads.of_step
  rw [step_of_letter word.1, word_declared field part, List.append_assoc, run_of_head word.2 behind, Split.andThen,
    dottedRest_parts parts stop]
  rfl

end Lexer

end MatlabOutline
