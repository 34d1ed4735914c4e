import MatlabOutline.Proofs.Declaration.AttributeText
import MatlabOutline.Proofs.Declaration.EntryParts
import MatlabOutline.Proofs.Declaration.LineText

/-!
Signatures as they are written: the outputs with the `=` behind them, a dotted name, and the parameters.
Main statement: behind the `function` keyword they are read as the lexemes that they are made of
(`DeclarationText.leads`), which are the words of a signature (`DeclarationText.signatureWords`).
-/

namespace MatlabOutline

open Lexer Scan

/-- Names between brackets, with a comma or only white space between two. -/
inductive NamesText
  | last (name : PlainWord) (after : Gap)
  | space (name : PlainWord) (gap : Gap) (filled : gap.chars ≠ []) (more : NamesText)
  | comma (name : PlainWord) (before after : Gap) (more : NamesText)

/-- The outputs of a signature with the `=` behind them. -/
inductive OutputsText
  | none
  | single (name : PlainWord) (before after : Gap)
  | bracket (lead : Gap) (names : Option NamesText) (before after : Gap)

inductive ParameterText
  | name (word : PlainWord)
  | unused

inductive ParametersText
  | none
  | empty (before inside : Gap)
  | list (before : Gap) (items : List (Spaced ParameterText))

structure DeclarationText where
  outputs : OutputsText
  name : String
  dotted : isDottedIdentifier name = true
  parameters : ParametersText

namespace NamesText

def names : NamesText → List String
  | last name _ => [name.text]
  | space name _ _ more => name.text :: more.names
  | comma name _ _ more => name.text :: more.names

def chars : NamesText → List Char
  | last name after => name.text.toList ++ after.chars
  | space name gap _ more => name.text.toList ++ (gap.chars ++ more.chars)
  | comma name before after more => name.text.toList ++ (before.chars ++ ',' :: (after.chars ++ more.chars))

def lexemes : NamesText → List (TokenKind × List Char)
  | last name after => (.name, name.text.toList) :: after.lexemes
  | space name gap _ more => (.name, name.text.toList) :: (gap.lexemes ++ more.lexemes)
  | comma name before after more =>
    (.name, name.text.toList) :: (before.lexemes ++ (.punctuation, [',']) :: (after.lexemes ++ more.lexemes))

end NamesText

namespace OutputsText

def names : OutputsText → List String
  | none => []
  | single name _ _ => [name.text]
  | bracket _ names _ _ => names.elim [] NamesText.names

def chars : OutputsText → List Char
  | none => []
  | single name before after => name.text.toList ++ (before.chars ++ '=' :: after.chars)
  | bracket lead names before after =>
    '[' :: (lead.chars ++ (names.elim [] NamesText.chars ++ ']' :: (before.chars ++ '=' :: after.chars)))

def lexemes : OutputsText → List (TokenKind × List Char)
  | none => []
  | single name before after =>
    (.name, name.text.toList) :: (before.lexemes ++ (.operator, ['=']) :: after.lexemes)
  | bracket lead names before after =>
    (.punctuation, ['[']) :: (lead.lexemes ++ (names.elim [] NamesText.lexemes ++
      (.punctuation, [']']) :: (before.lexemes ++ (.operator, ['=']) :: after.lexemes)))

/-- Brackets need no space between them and the `function` keyword. -/
def bracketed : OutputsText → Bool
  | bracket _ _ _ _ => true
  | _ => false

end OutputsText

namespace ParameterText

def text : ParameterText → String
  | name word => word.text
  | unused => "~"

def lexemes : ParameterText → List (TokenKind × List Char)
  | name word => [(.name, word.text.toList)]
  | unused => [(.operator, ['~'])]

end ParameterText

namespace ParametersText

def names : ParametersText → List String
  | list _ items => items.map fun s => s.item.text
  | _ => []

def chars : ParametersText → List Char
  | none => []
  | empty before inside => before.chars ++ '(' :: (inside.chars ++ [')'])
  | list before items => before.chars ++ bracketChars '(' ')' (fun p => p.text.toList) items

def lexemes : ParametersText → List (TokenKind × List Char)
  | none => []
  | empty before inside => before.lexemes ++ (.punctuation, ['(']) :: (inside.lexemes ++ [(.punctuation, [')'])])
  | list before items => before.lexemes ++ bracketLexemes '(' ')' ParameterText.lexemes items

end ParametersText

namespace DeclarationText

def chars (d : DeclarationText) : List Char :=
  d.outputs.chars ++ (d.name.toList ++ d.parameters.chars)

def lexemes (d : DeclarationText) : List (TokenKind × List Char) :=
  d.outputs.lexemes ++ (.nameFunction, d.name.toList) :: d.parameters.lexemes

end DeclarationText

/-- A word ends here, and no transpose follows it. -/
def Breaks (z : List Char) : Prop :=
  z.head?.any isIdentRest = false ∧ z.head? ≠ some '\''

theorem Breaks.cons {c : Char} (symbol : isIdentRest c = false) (other : c ≠ '\'') (z : List Char) :
    Breaks (c :: z) :=
  ⟨by simpa using symbol, by simpa using other⟩

theorem Breaks.of_blank {c : Char} (blank : isBlank c = true) (z : List Char) : Breaks (c :: z) := by
  refine .cons ?_ ?_ z
  · rw [← Bool.not_eq_true]
    exact fun ident => absurd blank (by simp [not_isBlank_of_isIdentRest c ident])
  · rintro rfl
    exact absurd blank (by decide)

theorem Breaks.filled {g : Gap} (filled : g.chars ≠ []) (z : List Char) : Breaks (g.chars ++ z) := by
  obtain ⟨c, w, chars⟩ := List.exists_cons_of_ne_nil filled
  rw [chars]
  exact .of_blank (g.blank c (by simp [chars])).1 _

theorem Breaks.gap {z : List Char} (breaks : Breaks z) (g : Gap) : Breaks (g.chars ++ z) := by
  by_cases empty : g.chars = []
  · rwa [empty]
  · exact .filled empty z

theorem Gap.head?_ne (g : Gap) {d : Char} (solid : isBlank d = false) {z : List Char} (other : z.head? ≠ some d) :
    (g.chars ++ z).head? ≠ some d := by
  rcases chars : g.chars with _ | ⟨c, w⟩
  · exact other
  · have blank := (g.blank c (by simp [chars])).1
    have away : c ≠ d := by
      rintro rfl
      simp [solid] at blank
    simpa using away

namespace Lexer

/-- The part of a signature that an `=` leads to. -/
def assigned (part : SignaturePart) : SignaturePart :=
  if part = .outputs then .name else part

variable {part : SignaturePart} {r : List Char}

theorem Leads.settle {st : LexState} (next : LexState) {xs : List (TokenKind × List Char)}
    (leads : Leads st xs next.operand r) (breaks : r.head? ≠ some '\'') : Leads st xs next.plain r := by
  rw [Leads, leads, lexemes_operand_plain next breaks]

theorem Leads.plain (outer : part ≠ .name) (w : PlainWord) (breaks : Breaks r) :
    Leads { signature := part } [(.name, w.text.toList)] { signature := part } r := by
  refine settle { signature := part } ?_ breaks.2
  cases part with
  | name => exact absurd rfl outer
  | outputs => exact .output rfl rfl w.isIdentifierChars breaks.1
  | none =>
    have word := w.isIdentifierChars
    have free := w.not_isReserved
    rcases chars : w.text.toList with _ | ⟨c, cs⟩
    · simp [chars, isIdentifierChars] at word
    · rw [chars] at word free
      exact .of_step (step_word rfl (.inl rfl) rfl word free breaks.1)

theorem Leads.mark {c : Char} (opens : c = '[' ∨ c = '(' ∨ c = ',' ∨ c = ';') {st : LexState} :
    Leads st [(.punctuation, [c])] st.plain r := by
  rcases opens with rfl | rfl | rfl | rfl <;> exact .of_step rfl

theorem Leads.bracket {st : LexState} (quote : r.head? ≠ some '\'') :
    Leads st [(.punctuation, [']'])] st.plain r :=
  settle _ (.of_step rfl) quote

theorem Leads.equals (other : r.head? ≠ some '=') :
    Leads { signature := part } [(.operator, ['='])] { signature := assigned part } r := by
  by_cases outputs : part = .outputs
  · subst outputs
    exact .assign rfl other
  · have single : optional (some '=') r = ⟨[], r⟩ := by
      rcases r with _ | ⟨d, r⟩
      · rfl
      · have away : some '=' ≠ some d := by simpa [eq_comm] using other
        rw [optional, if_neg away]
    have mark : step { signature := part } '=' r = operator { signature := part } '=' r := rfl
    apply Leads.of_step
    rw [List.nil_append, mark, operator, show operatorSecond '=' = some '=' from rfl, single,
      assigned, if_neg outputs]
    simp [outputs, LexState.plain]

end Lexer

section Outputs

variable {part : SignaturePart} (outer : part ≠ .name) {r : List Char}

@[simp] theorem NamesText.spelled_lexemes (t : NamesText) : spelled t.lexemes = t.chars := by
  induction t with
  | last => simp [lexemes, chars]
  | space _ _ _ _ ih => simp [lexemes, chars, spelled_append, ih]
  | comma _ _ _ _ ih => simp [lexemes, chars, spelled_append, ih]

theorem PlainWord.solid (w : PlainWord) (z : List Char) : (w.text.toList ++ z).head?.any (!isBlank ·) = true :=
  head?_any_append_left (solid_of_identifier w.identifier) z

theorem NamesText.solid (t : NamesText) (z : List Char) : (t.chars ++ z).head?.any (!isBlank ·) = true := by
  cases t <;> exact head?_any_append_left (PlainWord.solid _ _) z

include outer in
theorem NamesText.leads (t : NamesText) (solid : r.head?.any (!isBlank ·) = true) (breaks : Breaks r) :
    Leads { signature := part } t.lexemes { signature := part } r := by
  have word (w : PlainWord) {ys : List (TokenKind × List Char)}
      (rest : Leads { signature := part } ys { signature := part } r) (breaks : Breaks (spelled ys ++ r)) :
      Leads { signature := part } ((.name, w.text.toList) :: ys) { signature := part } r :=
    .append (.plain outer w breaks) rest
  induction t with
  | last name after =>
    refine word name (.solid after rfl solid) ?_
    simpa using breaks.gap after
  | space name gap filled more ih =>
    have blank : Leads { signature := part } gap.lexemes { signature := part } (spelled more.lexemes ++ r) :=
      .solid gap rfl (by simpa using more.solid r)
    refine word name (.append blank ih) ?_
    rw [spelled_append, gap.spelled_lexemes, List.append_assoc]
    exact .filled filled _
  | comma name before after more ih =>
    have blank : Leads { signature := part } after.lexemes { signature := part } (spelled more.lexemes ++ r) :=
      .solid after rfl (by simpa using more.solid r)
    have behind : Leads { signature := part } ((.punctuation, [',']) :: (after.lexemes ++ more.lexemes))
        { signature := part } r := .append (.mark (by simp)) (.append blank ih)
    have gap : Leads { signature := part } before.lexemes { signature := part }
        (spelled ((.punctuation, [',']) :: (after.lexemes ++ more.lexemes)) ++ r) :=
      .solid before rfl (by simp; decide)
    refine word name (.append gap behind) ?_
    rw [spelled_append, before.spelled_lexemes, List.append_assoc]
    exact Breaks.gap (.cons (by decide) (by decide) _) before

/-- The part of a signature behind the outputs. -/
def OutputsText.after (part : SignaturePart) : OutputsText → SignaturePart
  | none => part
  | _ => assigned part

@[simp] theorem OutputsText.spelled_lexemes (o : OutputsText) : spelled o.lexemes = o.chars := by
  cases o with
  | none => rfl
  | single => simp [lexemes, chars, spelled_append]
  | bracket lead names before after => cases names <;> simp [lexemes, chars, spelled_append]

theorem solid_of_start (start : r.head?.any isIdentStart = true) :
    r.head?.any (!isBlank ·) = true ∧ r.head? ≠ some '=' := by
  rcases r with _ | ⟨c, r⟩
  · simp at start
  · have letter : isIdentStart c = true := by simpa using start
    have ident := isIdentRest_of_isIdentStart c letter
    exact ⟨by simp [not_isBlank_of_isIdentRest c ident], by simpa using ne_of_isIdentRest ident (by decide)⟩

include outer in
theorem OutputsText.leads (o : OutputsText) (start : r.head?.any isIdentStart = true) :
    Leads { signature := part } o.lexemes { signature := o.after part } r := by
  obtain ⟨solid, other⟩ := solid_of_start start
  have equals (before after : Gap) :
      Leads { signature := part } (before.lexemes ++ (.operator, ['=']) :: after.lexemes)
        { signature := assigned part } r := by
    have gap : Leads { signature := assigned part } after.lexemes { signature := assigned part } r :=
      .solid after rfl solid
    have mark : Leads { signature := part } ((.operator, ['=']) :: after.lexemes)
        { signature := assigned part } r := by
      refine .append (.equals ?_) gap
      rw [spelled_gapLexemes]
      exact after.head?_ne (by decide) other
    exact .append (.solid before rfl (by simp; decide)) mark
  have breaks (before after : Gap) : Breaks (spelled (before.lexemes ++ (.operator, ['=']) :: after.lexemes) ++ r) := by
    rw [spelled_append, before.spelled_lexemes, List.append_assoc]
    exact Breaks.gap (.cons (by decide) (by decide) _) before
  cases o with
  | none => exact .nil _ _
  | single name before after =>
    exact .append (.plain outer name (breaks before after)) (equals before after)
  | bracket lead names before after =>
    have close : Leads { signature := part }
        ((.punctuation, [']']) :: (before.lexemes ++ (.operator, ['=']) :: after.lexemes))
        { signature := assigned part } r :=
      .append (.bracket (breaks before after).2) (equals before after)
    have inner : Leads { signature := part } (lead.lexemes ++ (names.elim [] NamesText.lexemes ++
        (.punctuation, [']']) :: (before.lexemes ++ (.operator, ['=']) :: after.lexemes)))
        { signature := assigned part } r := by
      cases names with
      | none => exact .append (.solid lead rfl (by simp; decide)) close
      | some names =>
        have listed := names.leads outer (r := spelled ((.punctuation, [']']) ::
          (before.lexemes ++ (.operator, ['=']) :: after.lexemes)) ++ r) (by simp; decide)
          (.cons (by decide) (by decide) _)
        refine .append (.solid lead rfl ?_) (.append listed close)
        rw [Option.elim_some, spelled_append, names.spelled_lexemes, List.append_assoc]
        exact names.solid _
    exact .append (.mark (by simp)) inner

end Outputs

namespace Scan

theorem signatureHasOutputs_mark {c : Char} {d depth : Nat} (mark : endsSearch depth c none = false)
    (other : c ≠ '.' ∧ c ≠ '=') (bracket : bracketStep depth c = d) (r : List Char) :
    signatureHasOutputs depth (c :: r) = signatureHasOutputs d r := by
  have going : endsSearch depth c r.head? = false := by simpa [endsSearch, other.1] using mark
  rw [signatureHasOutputs_step, going, if_neg (by simp), if_neg (by simp [other.2]), bracket]

theorem signatureHasOutputs_equals {r : List Char} (other : r.head? ≠ some '=') (depth : Nat) :
    signatureHasOutputs depth ('=' :: r) = true := by
  simp [signatureHasOutputs, other]

end Scan

theorem PlainWord.all_isIdentRest (w : PlainWord) : w.text.toList.all isIdentRest = true :=
  all_isIdentRest_of_identifier w.identifier

theorem NamesText.signatureHasOutputs (t : NamesText) (depth : Nat) (r : List Char) :
    Scan.signatureHasOutputs depth (t.chars ++ r) = Scan.signatureHasOutputs depth r := by
  have comma (r : List Char) : Scan.signatureHasOutputs depth (',' :: r) = Scan.signatureHasOutputs depth r :=
    signatureHasOutputs_mark (by simp [endsSearch]) (by decide) (by simp [bracketStep]) r
  induction t with
  | last name after =>
    rw [chars, List.append_assoc, signatureHasOutputs_word name.all_isIdentRest, signatureHasOutputs_gap after.blank]
  | space name gap _ more ih =>
    rw [chars, List.append_assoc, List.append_assoc, signatureHasOutputs_word name.all_isIdentRest,
      signatureHasOutputs_gap gap.blank, ih]
  | comma name before after more ih =>
    rw [chars, List.append_assoc, List.append_assoc, signatureHasOutputs_word name.all_isIdentRest,
      signatureHasOutputs_gap before.blank, List.cons_append, comma, List.append_assoc,
      signatureHasOutputs_gap after.blank, ih]

/-- The search for outputs comes to the `=` behind them. -/
theorem OutputsText.signatureHasOutputs {o : OutputsText} (filled : o ≠ none) {r : List Char}
    (other : r.head? ≠ some '=') : Scan.signatureHasOutputs 0 (o.chars ++ r) = true := by
  have equals (before after : Gap) : Scan.signatureHasOutputs 0 (before.chars ++ '=' :: (after.chars ++ r)) = true := by
    rw [signatureHasOutputs_gap before.blank, signatureHasOutputs_equals (after.head?_ne (by decide) other)]
  have opening (r : List Char) : Scan.signatureHasOutputs 0 ('[' :: r) = Scan.signatureHasOutputs 1 r :=
    signatureHasOutputs_mark rfl (by decide) rfl r
  have closing (r : List Char) : Scan.signatureHasOutputs 1 (']' :: r) = Scan.signatureHasOutputs 0 r :=
    signatureHasOutputs_mark rfl (by decide) rfl r
  cases o with
  | none => exact absurd rfl filled
  | single name before after =>
    rw [chars, List.append_assoc, signatureHasOutputs_word name.all_isIdentRest, List.append_assoc, List.cons_append,
      equals]
  | bracket lead names before after =>
    have listed (z : List Char) : Scan.signatureHasOutputs 1 (names.elim [] NamesText.chars ++ z) =
        Scan.signatureHasOutputs 1 z := by
      cases names with
      | none => rfl
      | some names => exact names.signatureHasOutputs 1 z
    rw [chars, List.cons_append, opening, List.append_assoc, signatureHasOutputs_gap lead.blank, List.append_assoc,
      listed, List.cons_append, closing, List.append_assoc, List.cons_append, equals]

/-- The search for outputs passes over a dotted name. -/
theorem signatureHasOutputs_dotted {d : List Char} (dotted : isDottedChars d = true) (r : List Char) :
    Scan.signatureHasOutputs 0 (d ++ r) = Scan.signatureHasOutputs 0 r := by
  obtain ⟨p, ps, rfl, word, parts⟩ := exists_parts_of_isDottedChars dotted
  rw [List.append_assoc, signatureHasOutputs_word (all_isIdentRest_of_identifier word)]
  clear word dotted
  induction ps with
  | nil => rfl
  | cons q ps ih =>
    rw [List.forall_mem_cons] at parts
    have ident := all_isIdentRest_of_identifier parts.1
    rcases q with _ | ⟨c, q⟩
    · simp [isIdentifierChars] at parts
    have letter : isIdentRest c = true := by
      rw [List.all_cons, Bool.and_eq_true] at ident
      exact ident.1
    have point : endsSearch 0 '.' (some c) = false := by
      simp [endsSearch, ne_of_isIdentRest letter (d := '.') (by decide)]
    rw [List.flatMap_cons, List.append_assoc, List.cons_append, signatureHasOutputs_step]
    rw [show (c :: q ++ (ps.flatMap ('.' :: ·) ++ r)).head? = some c from rfl, point, if_neg (by simp),
      if_neg (by simp)]
    rw [show bracketStep 0 '.' = 0 from rfl, signatureHasOutputs_word ident, ih parts.2]

theorem ParameterText.isItem (p : ParameterText) : IsItem p.text.toList p.lexemes := by
  cases p with
  | name w =>
    refine ⟨by simp [lexemes, text], solid_of_identifier w.identifier, fun rest ends => ?_⟩
    exact rest.word w.isIdentifierChars w.not_isReserved (ends_word ends).1 (ends_word ends).2
  | unused =>
    refine ⟨rfl, rfl, fun {ys r} rest ends => rest.query (by simp) ?_⟩
    intro first
    rw [first] at ends
    exact absurd ends (by decide)

namespace ParametersText

variable (p : ParametersText) {r : List Char}

@[simp] theorem spelled_lexemes : spelled p.lexemes = p.chars := by
  cases p with
  | none => rfl
  | empty => simp [lexemes, chars, spelled_append]
  | list before items => simp [lexemes, chars, spelled_append, spelled_bracketLexemes ParameterText.isItem]

/-- The parameters are read before whatever can end a signature. -/
theorem reads (quote : r.head? ≠ some '\'') : Reads p.lexemes r := by
  cases p with
  | none => exact .nil r
  | empty before inside =>
    have close : Reads [(.punctuation, [')'])] r := (Reads.nil r).close (.inl rfl) (by simpa using quote)
    have gap : Reads (inside.lexemes ++ [(.punctuation, [')'])]) r := close.gap inside.blank (by simp; decide)
    exact (gap.mark (.inl rfl)).gap before.blank (by simp; decide)
  | list before items =>
    have listed := (Reads.nil r).bracket ParameterText.isItem (by simpa using quote) (.inl ⟨rfl, rfl⟩) items
    rw [List.append_nil] at listed
    exact listed.gap before.blank (by simp [bracketLexemes]; decide)

theorem chars_cases : p.chars = [] ∨ ∃ (g : Gap) (z : List Char), p.chars = g.chars ++ '(' :: z := by
  cases p with
  | none => exact .inl rfl
  | empty before inside => exact .inr ⟨before, _, rfl⟩
  | list before items => exact .inr ⟨before, _, rfl⟩

theorem breaks (breaks : Breaks r) : Breaks (p.chars ++ r) := by
  rcases p.chars_cases with none | ⟨g, z, list⟩
  · rwa [none]
  · rw [list, List.append_assoc]
    exact Breaks.gap (.cons (by decide) (by decide) _) g

end ParametersText

/-- What can stand behind a signature. -/
structure EndsSignature (r : List Char) : Prop where
  first : r.head?.any (fun c => isBlank c || c == ';' || c == '%') = true
  free : signatureHasOutputs 0 r = false

theorem Breaks.endsDotted {z : List Char} (breaks : Breaks z) (point : z.head? ≠ some '.') : endsDotted z = true := by
  rw [Scan.endsDotted, breaks.1, Scan.startsPart, beq_false_of_ne point]
  rfl

namespace EndsSignature

variable {r : List Char} (ends : EndsSignature r)
include ends

theorem breaks : Breaks r := by
  have first := ends.first
  rcases r with _ | ⟨c, r⟩
  · simp at first
  · have cases : (isBlank c = true ∨ c = ';') ∨ c = '%' := by simpa using first
    rcases cases with (blank | rfl) | rfl
    · exact .of_blank blank r
    · exact .cons (by decide) (by decide) r
    · exact .cons (by decide) (by decide) r

theorem head?_ne : r.head? ≠ some '.' := by
  intro point
  have first := ends.first
  rw [point] at first
  exact absurd first (by decide)

end EndsSignature

theorem LineRest.endsSignature (l : LineRest) : EndsSignature l.chars := by
  have behind : EndsSignature (l.remarkChars ++ l.ending.chars) := by
    cases remark : l.remark with
    | none =>
      rw [LineRest.remarkChars, remark]
      cases l.ending <;> exact ⟨rfl, rfl⟩
    | some body =>
      rw [LineRest.remarkChars, remark]
      exact ⟨rfl, rfl⟩
  rw [LineRest.chars]
  refine ⟨?_, by rw [Scan.signatureHasOutputs_gap l.gap.blank, behind.free]⟩
  rcases chars : l.gap.chars with _ | ⟨c, w⟩
  · exact behind.first
  · have blank := (l.gap.blank c (by simp [chars])).1
    simp [blank]

namespace DeclarationText

variable (d : DeclarationText) {r : List Char}

@[simp] theorem spelled_lexemes : spelled d.lexemes = d.chars := by
  simp [lexemes, chars, spelled_append]

theorem isDottedChars : isDottedChars d.name.toList = true :=
  d.dotted

theorem start (z : List Char) : (d.name.toList ++ z).head?.any isIdentStart = true := by
  obtain ⟨p, ps, name, word, -⟩ := exists_parts_of_isDottedChars d.isDottedChars
  rcases p with _ | ⟨c, p⟩
  · simp [isIdentifierChars] at word
  · rw [isIdentifierChars, Bool.and_eq_true] at word
    rw [name]
    simpa using word.1

/-- The name of a signature and its parameters. -/
theorem leads_name (ends : EndsSignature r) :
    Leads { signature := .name } ((.nameFunction, d.name.toList) :: d.parameters.lexemes) {} r := by
  have point : (d.parameters.chars ++ r).head? ≠ some '.' := by
    rcases d.parameters.chars_cases with none | ⟨g, z, list⟩
    · rw [none]
      exact ends.head?_ne
    · rw [list, List.append_assoc]
      exact g.head?_ne (by decide) (by simp)
  have breaks := d.parameters.breaks ends.breaks
  have declared : Leads { signature := .name } [(.nameFunction, d.name.toList)] {}
      (spelled d.parameters.lexemes ++ r) := by
    rw [d.parameters.spelled_lexemes]
    exact .settle {} (.declared rfl rfl d.isDottedChars (breaks.endsDotted point)) breaks.2
  exact .append declared (.of_reads (d.parameters.reads ends.breaks.2))

theorem solid (z : List Char) : (d.chars ++ z).head?.any (!isBlank ·) = true := by
  rw [chars, List.append_assoc, List.append_assoc]
  cases d.outputs with
  | none => exact (solid_of_start (d.start _)).1
  | single name before after => exact head?_any_append_left (name.solid _) _
  | bracket => rfl

/-- The part of a signature that the search for outputs tells. -/
def part : SignaturePart :=
  match d.outputs with
  | .none => .name
  | _ => .outputs

theorem signatureHasOutputs (ends : EndsSignature r) :
    Scan.signatureHasOutputs 0 (d.chars ++ r) = (d.part == .outputs) := by
  have other (z : List Char) := (solid_of_start (d.start z)).2
  rw [chars, List.append_assoc, List.append_assoc, part]
  cases outputs : d.outputs with
  | none =>
    rw [OutputsText.chars, List.nil_append, signatureHasOutputs_dotted d.isDottedChars]
    rcases d.parameters.chars_cases with none | ⟨g, z, list⟩
    · rw [none]
      exact ends.free
    · rw [list, List.append_assoc, signatureHasOutputs_gap g.blank]
      rfl
  | single => exact OutputsText.signatureHasOutputs (by simp) (other _)
  | bracket => exact OutputsText.signatureHasOutputs (by simp) (other _)

theorem leads_part (ends : EndsSignature r) : Leads { signature := d.part } d.lexemes {} r := by
  have named := d.leads_name ends
  have outputs {o : OutputsText} : Leads { signature := .outputs } o.lexemes { signature := o.after .outputs }
      (spelled ((.nameFunction, d.name.toList) :: d.parameters.lexemes) ++ r) :=
    o.leads (by simp) (by
      rw [spelled_cons, List.append_assoc]
      exact d.start _)
  rw [lexemes, part]
  cases d.outputs with
  | none => exact named
  | single => exact .append outputs named
  | bracket => exact .append outputs named

/-- Behind the `function` keyword a signature is read as it is written. -/
theorem leads (opening : Gap) (apart : opening.chars = [] → d.outputs.bracketed = true) (ends : EndsSignature r)
    {st : LexState} (fresh : st.signature = .none) (field : st.afterDot = false) :
    Leads st ((.keyword, "function".toList) :: (opening.lexemes ++ d.lexemes)) {} r := by
  have breaks : Breaks (opening.chars ++ (d.chars ++ r)) := by
    by_cases empty : opening.chars = []
    · have bracketed := apart empty
      rw [empty, chars]
      cases outputs : d.outputs with
      | bracket => exact .cons (by decide) (by decide) _
      | _ => simp [outputs, OutputsText.bracketed] at bracketed
    · exact .filled empty _
  have keyword : Leads st [(.keyword, "function".toList)] { signature := d.part }
      (spelled (opening.lexemes ++ d.lexemes) ++ r) := by
    rw [spelled_append, opening.spelled_lexemes, d.spelled_lexemes, List.append_assoc]
    have first := Leads.function fresh field breaks.1
    have told : (if (d.part == .outputs) = true then SignaturePart.outputs else .name) = d.part := by
      rw [part]
      cases d.outputs <;> rfl
    rw [signatureHasOutputs_gap opening.blank, d.signatureHasOutputs ends, told] at first
    exact .settle { signature := d.part } first breaks.2
  refine .append keyword (.append (.solid opening rfl ?_) (d.leads_part ends))
  rw [d.spelled_lexemes]
  exact d.solid r

end DeclarationText

section Words

theorem wordsOf_gap (g : Gap) (xs : List (TokenKind × List Char)) : wordsOf (g.lexemes ++ xs) = wordsOf xs := by
  rw [wordsOf_append, g.wordsOf_lexemes, List.nil_append]

theorem wordsOf_name (w : PlainWord) (xs : List (TokenKind × List Char)) :
    wordsOf ((.name, w.text.toList) :: xs) = (.name, w.text) :: wordsOf xs := by
  rw [wordsOf_cons (by simp), String.ofList_toList]

theorem NamesText.outputNames (t : NamesText) : OutputNames t.names (wordsOf t.lexemes) := by
  induction t with
  | last name after =>
    rw [lexemes, wordsOf_name, after.wordsOf_lexemes]
    exact .last name.text
  | space name gap _ more ih =>
    rw [lexemes, wordsOf_name, wordsOf_gap]
    exact .space name.text ih
  | comma name before after more ih =>
    rw [lexemes, wordsOf_name, wordsOf_gap, wordsOf_cons (by simp), wordsOf_gap]
    exact .comma name.text ih

theorem OutputsText.outputWords (o : OutputsText) : OutputWords o.names (wordsOf o.lexemes) := by
  have equals (after : Gap) : wordsOf ((.operator, ['=']) :: after.lexemes) = [(.operator, "=")] := by
    rw [wordsOf_cons (by simp), after.wordsOf_lexemes]
  cases o with
  | none => exact .none
  | single name before after =>
    rw [lexemes, wordsOf_name, wordsOf_gap, equals]
    exact .single name.text
  | bracket lead names before after =>
    rw [lexemes, wordsOf_cons (by simp), wordsOf_gap, wordsOf_append, wordsOf_cons (by simp), wordsOf_gap, equals]
    cases names with
    | none => exact .empty
    | some names => exact .list names.outputNames

theorem ParameterText.parameterWord (p : ParameterText) :
    ∃ x, wordsOf p.lexemes = [x] ∧ ParameterWord p.text x := by
  cases p with
  | name w => exact ⟨_, wordsOf_name w [], .name w.text⟩
  | unused => exact ⟨_, rfl, .unused⟩

theorem Spaced.wordsOf_lexemes (s : Spaced ParameterText) :
    wordsOf (s.lexemes ParameterText.lexemes) = wordsOf s.item.lexemes := by
  have before := wordsOf_gap ⟨s.before, s.gapBefore⟩
  have after := Gap.wordsOf_lexemes ⟨s.after, s.gapAfter⟩
  rw [Spaced.lexemes, show gapLexemes s.before = Gap.lexemes ⟨s.before, s.gapBefore⟩ from rfl, before, wordsOf_append,
    show gapLexemes s.after = Gap.lexemes ⟨s.after, s.gapAfter⟩ from rfl, after, List.append_nil]

theorem parameterNames_list (s : Spaced ParameterText) (items : List (Spaced ParameterText)) :
    ParameterNames ((s :: items).map fun s => s.item.text)
      (wordsOf (listLexemes ParameterText.lexemes (s :: items) ++ [(.punctuation, [')'])])) := by
  induction items generalizing s with
  | nil =>
    obtain ⟨x, read, param⟩ := s.item.parameterWord
    rw [listLexemes_singleton, wordsOf_append, s.wordsOf_lexemes, read]
    exact .last param
  | cons t items ih =>
    obtain ⟨x, read, param⟩ := s.item.parameterWord
    have further := ih t
    rw [listLexemes_cons_cons, List.append_assoc, wordsOf_append, s.wordsOf_lexemes, read, List.cons_append,
      List.cons_append, wordsOf_cons (by simp)]
    exact .comma param further

theorem ParametersText.parameterWords (p : ParametersText) : ParameterWords p.names (wordsOf p.lexemes) := by
  cases p with
  | none => exact .none
  | empty before inside =>
    rw [lexemes, wordsOf_gap, wordsOf_cons (by simp), wordsOf_gap]
    exact .empty
  | list before items =>
    rw [lexemes, wordsOf_gap, bracketLexemes, wordsOf_cons (by simp)]
    rcases items with _ | ⟨s, items⟩
    · exact .empty
    · exact .list (parameterNames_list s items)

/-- The words of a signature tell its outputs, its name and its parameters. -/
theorem DeclarationText.signatureWords (d : DeclarationText) :
    SignatureWords d.outputs.names d.name d.parameters.names ((.keyword, "function") :: wordsOf d.lexemes) := by
  rw [lexemes, wordsOf_append, wordsOf_cons (by simp), String.ofList_toList]
  exact .mk d.outputs.outputWords d.parameters.parameterWords

end Words

end MatlabOutline
