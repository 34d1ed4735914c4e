import MatlabOutline.Proofs.Declaration.ClassOpening
import MatlabOutline.Proofs.Declaration.SignatureText

/-!
Texts of a function: a header, the signature, comment lines, a blank line and `end`. Main statements: below the
header they are read as they are written, also with the signature completed (`FunctionText.tokens_code`,
`FunctionText.tokens_completed`), and normalizing does nothing else (`FunctionText.normalize_code`).
-/

namespace MatlabOutline

open Lexer

/-- Whole lines that hold only white space and comments. -/
structure HeaderText where
  text : String
  quiet : ∀ t ∈ tokenize text, t.isHeader = true
  whole : endsLine text = true

/-- The `end` of a function, alone on its line. -/
structure ClosingText where
  text : String
  closes : ∃ front k behind, tokenize text = front ++ k :: behind ∧ (∀ t ∈ front ++ behind, t.isSpacing = true) ∧
    k.isKeyword "end" = true

structure SignatureText where
  margin : Gap
  opening : Gap
  declaration : DeclarationText
  apart : opening.chars = [] → declaration.outputs.bracketed = true
  rest : LineRest

/-- A function with comment lines below its signature. -/
structure FunctionText where
  header : HeaderText
  signature : SignatureText
  run : List QuietLine
  commented : ∀ l ∈ run, l.remark.isSome = true
  blank : Line []
  closing : ClosingText

namespace SignatureText

variable (s : SignatureText)

def chars : List Char :=
  s.margin.chars ++ ("function".toList ++ (s.opening.chars ++ (s.declaration.chars ++ s.rest.chars)))

def text : String :=
  String.ofList s.chars

def codeLexemes : List (TokenKind × List Char) :=
  s.margin.lexemes ++ (.keyword, "function".toList) :: (s.opening.lexemes ++ s.declaration.lexemes)

end SignatureText

namespace FunctionText

variable (f : FunctionText)

def name : String :=
  f.signature.declaration.name

def comments : List String :=
  f.run.filterMap fun l => l.comment

def pieces : List String :=
  f.signature.text :: (f.run.map QuietLine.text ++ [f.blank.text])

/-- The text below the header. -/
def code : String :=
  String.join f.pieces ++ f.closing.text

def text : String :=
  f.header.text ++ f.code

/-- What the signature and the comments say of the function. The comment behind the signature documents it only
if the comment lines below say nothing. -/
def doc (scope : String) : FunctionDoc where
  name := f.name
  scope := scope
  doc := Docstring.ofComments f.comments <|> f.signature.rest.comment.bind fun text => Docstring.ofComments [text]
  args := .ofNames f.signature.declaration.parameters.names
  returns := .ofNames f.signature.declaration.outputs.names

/-- A run of tokens from which the function is read. -/
def Tokens (ts : List Token) : Prop :=
  ∃ front remark e run blank closing,
    ts = front ++ (Option.toList remark ++ e :: (run ++ (blank ++ closing))) ∧
    SignatureWords f.signature.declaration.outputs.names f.name f.signature.declaration.parameters.names
      (words front) ∧
    remark.map Token.text = f.signature.rest.comment ∧ (∀ t ∈ remark, t.isRemark = true) ∧ e.kind = .newline ∧
    Cursor.CommentLines run f.comments ∧ IsLine [] blank ∧
    ∃ gap k behind, closing = gap ++ k :: behind ∧ (∀ t ∈ gap ++ behind, t.isSpacing = true) ∧
      k.isKeyword "end" = true

end FunctionText

namespace SignatureText

variable (s : SignatureText)

/-- A signature line is read as it is written. -/
theorem lexemes_text : Lexer.lexemes .initial s.text.toList = s.codeLexemes ++ s.rest.lexemes := by
  have margin : Leads .initial s.margin.lexemes .initial (spelled ((.keyword, "function".toList) ::
      (s.opening.lexemes ++ s.declaration.lexemes) ++ s.rest.lexemes) ++ []) := by
    refine .solid s.margin rfl ?_
    rw [spelled_append, spelled_cons, List.append_assoc, List.append_assoc]
    exact head?_any_append_left (by decide) _
  have signed : Leads .initial ((.keyword, "function".toList) :: (s.opening.lexemes ++ s.declaration.lexemes)) {}
      (spelled s.rest.lexemes ++ []) := by
    rw [List.append_nil, s.rest.spelled_lexemes]
    exact s.declaration.leads s.opening s.apart s.rest.endsSignature rfl rfl
  have line := Leads.append margin (.append signed (s.rest.leads rfl (.inl rfl) []))
  rw [Leads, Lexer.lexemes, List.append_nil, List.append_nil, ← List.append_assoc] at line
  rw [text, String.toList_ofList, codeLexemes, ← line]
  simp [chars, spelled_append, s.rest.spelled_lexemes]

theorem map_lexeme_text : (tokenize s.text).map Token.lexeme = s.codeLexemes ++ s.rest.lexemes := by
  rw [Token.map_lexeme_tokenize, s.lexemes_text]

theorem wordsOf_codeLexemes :
    wordsOf s.codeLexemes = (.keyword, "function") :: wordsOf s.declaration.lexemes := by
  rw [codeLexemes, wordsOf_gap, wordsOf_cons (by simp), wordsOf_gap, String.ofList_toList]

end SignatureText

theorem Token.isRemark_of_segment {t u : Token} (same : u.segment = t.segment) : u.isRemark = t.isRemark := by
  rw [isRemark, isRemark, isContinuation, isContinuation, kind_of_segment same, text_of_segment same]

/-- A comment and a line end stay what they are. -/
theorem Relisted.remark_inv {remark : Option Token} (own : ∀ t ∈ remark, t.isRemark = true) {e : Token}
    (ends : e.kind = .newline) {ts us : List Token} (relisted : Relisted (remark.toList ++ e :: ts) us) :
    ∃ remark' e' us', us = Option.toList remark' ++ e' :: us' ∧ remark'.map Token.text = remark.map Token.text ∧
      (∀ t ∈ remark', t.isRemark = true) ∧ e'.kind = .newline ∧ Relisted ts us' := by
  have line {us : List Token} (relisted : Relisted (e :: ts) us) :
      ∃ e' us', us = e' :: us' ∧ e'.kind = .newline ∧ Relisted ts us' := by
    obtain ⟨e', us', rfl, same, rest⟩ := relisted.cons_inv (by simp [ends])
    exact ⟨e', us', rfl, by rw [Token.kind_of_segment same, ends], rest⟩
  cases remark with
  | none =>
    obtain ⟨e', us', rfl, ends', rest⟩ := line relisted
    exact ⟨none, e', us', rfl, rfl, by simp, ends', rest⟩
  | some t =>
    have remark := own t rfl
    obtain ⟨t', us, rfl, same, behind⟩ := relisted.cons_inv (by simp [Token.kind_of_isRemark remark])
    obtain ⟨e', us', rfl, ends', rest⟩ := line behind
    refine ⟨some t', e', us', rfl, by simp [Token.text_of_segment same], ?_, ends', rest⟩
    simpa [Token.isRemark_of_segment same] using remark

/-- Tokens that declare nothing keep their kinds. -/
theorem Relisted.forall_kind {p : TokenKind → Prop} (declared : ¬ p .nameFunction) {ts us : List Token}
    (relisted : Relisted ts us) (all : ∀ t ∈ ts, p t.kind) : ∀ u ∈ us, p u.kind := by
  induction relisted with
  | nil => simp
  | same same _ ih =>
    rw [List.forall_mem_cons] at all ⊢
    exact ⟨by rw [Token.kind_of_segment same]; exact all.1, ih all.2⟩
  | list same kind =>
    rw [List.forall_mem_cons, kind] at all
    exact absurd all.1 declared

theorem Token.isSpacing_iff (t : Token) : t.isSpacing = true ↔ t.kind = .whitespace ∨ t.kind = .newline := by
  simp [isSpacing, isWhitespace, isNewline]

theorem words_relisted_of_blank {ts us : List Token} (blank : words ts = []) (relisted : Relisted ts us) :
    words us = [] := by
  rw [relisted.words_eq (by simp [blank]), blank]

theorem Cursor.CommentLines.relisted {ts us : List Token} {cs : List String} (lines : CommentLines ts cs)
    (relisted : Relisted ts us) : CommentLines us cs := by
  induction lines generalizing us with
  | nil =>
    cases relisted
    exact .nil
  | @cons gap ts t e cs blank remark ends _ ih =>
    obtain ⟨gap', rest, rfl, first, relisted⟩ := relisted.append_inv
    obtain ⟨t', rest, rfl, same, relisted⟩ := relisted.cons_inv (by simp [Token.kind_of_isRemark remark])
    obtain ⟨e', us, rfl, same', relisted⟩ := relisted.cons_inv (by simp [ends])
    rw [← Token.text_of_segment same]
    refine .cons (words_relisted_of_blank blank first) ?_ (by rw [Token.kind_of_segment same', ends]) (ih relisted)
    rw [Token.isRemark_of_segment same, remark]

namespace FunctionText

variable (f : FunctionText)

theorem commentLines_run {ls : List QuietLine} (commented : ∀ l ∈ ls, l.remark.isSome = true) :
    Cursor.CommentLines ((ls.map fun l => tokenize l.text).flatten) (ls.filterMap fun l => l.comment) := by
  induction ls with
  | nil => exact .nil
  | cons l ls ih =>
    rw [List.forall_mem_cons] at commented
    obtain ⟨gap, remark, e, tokens, blank, said, own, ends⟩ := l.tokens_text
    obtain ⟨body, remarked⟩ := Option.isSome_iff_exists.mp commented.1
    have comment : l.comment = some (String.ofList ('%' :: body)) := by
      rw [LineRest.comment, remarked]
      rfl
    obtain ⟨t, rfl, text⟩ := Option.map_eq_some_iff.mp (said.trans comment)
    rw [List.map_cons, List.flatten_cons, List.filterMap_cons, comment, tokens]
    have rest := Cursor.CommentLines.cons blank (own t rfl) ends (ih commented.2)
    rw [text] at rest
    simpa using rest

/-- The tokens of the lines below the header. -/
def lineTokens : List Token :=
  (f.pieces.map tokenize).flatten ++ tokenize f.closing.text

theorem tokens_relisted {us : List Token} (relisted : Relisted f.lineTokens us) : f.Tokens us := by
  obtain ⟨front, remark, e, line, read, said, own, ends⟩ := f.signature.rest.split_lexemes f.signature.map_lexeme_text
  have signature := f.signature.declaration.signatureWords
  rw [← f.signature.wordsOf_codeLexemes, ← read] at signature
  have shape : f.lineTokens = front ++ (remark.toList ++ e :: (((f.run.map fun l => tokenize l.text).flatten) ++
      (tokenize f.blank.text ++ tokenize f.closing.text))) := by
    simp only [lineTokens, pieces, List.map_cons, List.map_append, List.map_nil, List.flatten_cons,
      List.flatten_append, List.flatten_nil, List.map_map, Function.comp_def, line]
    simp
  rw [shape] at relisted
  obtain ⟨front', us, rfl, first, relisted⟩ := relisted.append_inv
  obtain ⟨remark', e', us, rfl, said', own', ends', relisted⟩ := relisted.remark_inv own ends
  obtain ⟨run', us, rfl, lines, relisted⟩ := relisted.append_inv
  obtain ⟨blank', closing', rfl, blank, relisted⟩ := relisted.append_inv
  obtain ⟨gap, k, behind, closing, spacing, ending⟩ := f.closing.closes
  rw [closing] at relisted
  obtain ⟨gap', us, rfl, before, relisted⟩ := relisted.append_inv
  obtain ⟨k', behind', rfl, same, after⟩ := relisted.cons_inv (by simp [Token.kind_of_isKeyword ending])
  refine ⟨front', remark', e', run', blank', _, rfl, signature.relisted first, said'.trans said, own', ends',
    (commentLines_run f.commented).relisted lines, f.blank.isLine.relisted (by simp) blank, gap', k', behind', rfl,
    ?_, ?_⟩
  · simp only [Token.isSpacing_iff, List.forall_mem_append] at spacing ⊢
    exact ⟨before.forall_kind (p := fun kind => kind = .whitespace ∨ kind = .newline) (by simp) spacing.1,
      after.forall_kind (p := fun kind => kind = .whitespace ∨ kind = .newline) (by simp) spacing.2⟩
  · rwa [Token.isKeyword, Token.is_of_segment same]

theorem endsLine_pieces : ∀ p ∈ f.pieces, endsLine p = true := by
  simp only [pieces, List.forall_mem_cons, List.forall_mem_append, List.not_mem_nil, false_imp_iff, implies_true,
    and_true]
  refine ⟨?_, ?_, f.blank.isLine.endsLine⟩
  · obtain ⟨front, remark, e, line, -, -, -, ends⟩ := f.signature.rest.split_lexemes f.signature.map_lexeme_text
    simp [endsLine, line, Token.isNewline, ends]
  · intro p member
    obtain ⟨l, -, rfl⟩ := List.mem_map.mp member
    exact l.endsLine_text

theorem map_segment_lineTokens : f.lineTokens.map Token.segment = segments f.code := by
  rw [lineTokens, List.map_append, map_segment_tokenize, code, segments_join_append f.endsLine_pieces]
  simp [List.map_flatten, Function.comp_def, map_segment_tokenize]

theorem tokens_code : f.Tokens (tokenize f.code) :=
  f.tokens_relisted (.of_segments (by rw [map_segment_tokenize, f.map_segment_lineTokens]))

theorem tokens_completed : f.Tokens (tokenize (completeSignatures f.code)) := by
  rw [tokenize_completeSignatures]
  exact f.tokens_relisted (relisted_withLists f.map_segment_lineTokens 1)

end FunctionText

theorem Nesting.step_spacing (n : Nesting) {t : Token} (spacing : t.isSpacing = true) : n.step t = n := by
  rw [Token.isSpacing_iff] at spacing
  rcases spacing with kind | kind <;>
    simp [step, kind, Token.isOpenBracket, Token.isCloseBracket, Token.isPunct, Token.is]

theorem sheltered_spacing {n : Nesting} (outside : n.inMethods = false) {ts : List Token}
    (spacing : ∀ t ∈ ts, t.isSpacing = true) : Sheltered n ts ∧ ts.foldl Nesting.step n = n := by
  induction ts with
  | nil => exact ⟨trivial, rfl⟩
  | cons t ts ih =>
    rw [List.forall_mem_cons] at spacing
    rw [Sheltered, List.foldl_cons, n.step_spacing spacing.1]
    exact ⟨⟨outside, (ih spacing.2).1⟩, (ih spacing.2).2⟩

theorem Cursor.CommentLines.calm {ts : List Token} {cs : List String} (lines : CommentLines ts cs) {n : Nesting}
    (outside : n.inMethods = false) : Calm n ts n := by
  induction lines with
  | nil => exact ⟨rfl, trivial, rfl⟩
  | @cons gap ts t e cs blank remark ends _ ih =>
    have line : Calm n (gap ++ (Option.toList (some t) ++ [e])) n := by
      have own : ∀ u ∈ some t, u.isRemark = true := by simpa using remark
      have within : ∀ x ∈ words gap, x.1 ≠ .newline := by simp [blank]
      have calm := Calm.remarked own ends within (.inl outside)
      rwa [blank] at calm
    simpa using line.append ih

theorem Cursor.CommentLines.unbroken {ts : List Token} {cs : List String} (lines : CommentLines ts cs) :
    ∀ t ∈ ts, t.isContinuation = false := by
  induction lines with
  | nil => simp
  | cons blank remark ends _ ih =>
    simp only [List.forall_mem_append, List.forall_mem_cons]
    refine ⟨fun g member => ?_, ?_, by simp [Token.isContinuation, ends], ih⟩
    · have kind : g.kind = .whitespace := by simpa [Token.isWhitespace] using blank_of_words blank g member
      simp [Token.isContinuation, kind]
    · rw [Token.isRemark, Bool.and_eq_true, Bool.not_eq_true'] at remark
      exact remark.2

namespace FunctionText

variable {f : FunctionText} {ts : List Token} (tokens : f.Tokens ts)
include tokens

/-- No line of the function declares a method without a body. -/
theorem Tokens.settled : Settled {} (tokenLines ts) := by
  obtain ⟨front, remark, e, run, blank, closing, rfl, signature, -, own, ends, lines, isLine, gap, k, behind, rfl,
    spacing, ending⟩ := tokens
  have first := Calm.remarked own ends (fun x member => (signature.kind_ne x member).1) (n := {}) (.inl rfl)
  rw [Nesting.foldl_signature _ signature] at first
  have second : Calm { blocks := ["function"] } run { blocks := ["function"] } := lines.calm rfl
  have third : Calm { blocks := ["function"] } blank { blocks := ["function"] } := isLine.calm (by simp) (.inl rfl)
  have whole := first.append (second.append third)
  have shape : front ++ (remark.toList ++ e :: (run ++ (blank ++ (gap ++ k :: behind)))) =
      front ++ (remark.toList ++ [e]) ++ (run ++ blank) ++ (gap ++ k :: behind) := by simp
  rw [shape]
  refine settled_tokenLines_append whole.ended whole.settled ?_
  rw [whole.reached]
  apply settled_of_sheltered fun l member => mem_tokenLines_ne member
  rw [List.forall_mem_append] at spacing
  obtain ⟨before, same⟩ := sheltered_spacing (n := { blocks := ["function"] }) rfl spacing.1
  have ended : Nesting.step { blocks := ["function"] } k = {} := Nesting.step_end ending rfl
  rw [flatten_tokenLines, sheltered_append, same, Sheltered, ended]
  exact ⟨before, rfl, (sheltered_spacing (n := {}) rfl spacing.2).1⟩

theorem Tokens.unbroken : ∀ t ∈ ts, t.isContinuation = false := by
  obtain ⟨front, remark, e, run, blank, closing, rfl, signature, -, own, ends, lines, isLine, gap, k, behind, rfl,
    spacing, ending⟩ := tokens
  have other {t : Token} (kind : t.kind ≠ .comment) : t.isContinuation = false := by simp [Token.isContinuation, kind]
  simp only [List.forall_mem_append, List.forall_mem_cons] at spacing ⊢
  have quiet {t : Token} (spacing : t.isSpacing = true) : t.isContinuation = false := by
    rw [Token.isSpacing_iff] at spacing
    rcases spacing with kind | kind <;> exact other (by simp [kind])
  refine ⟨forall_mem_of_words (fun t _ blank => ?_) fun t word => other (signature.kind_ne _ word).2,
    fun t member => ?_, other (by simp [ends]), lines.unbroken, isLine.unbroken (by simp),
    fun t member => quiet (spacing.1 t member), other (by simp [Token.kind_of_isKeyword ending]),
    fun t member => quiet (spacing.2 t member)⟩
  · exact quiet (by simp [Token.isSpacing, blank])
  · have remark := own t (by simpa using member)
    rw [Token.isRemark, Bool.and_eq_true, Bool.not_eq_true'] at remark
    exact remark.2

omit tokens in
theorem normalize_code (f : FunctionText) : normalize f.code = completeSignatures f.code := by
  rw [normalize, joinContinuedLines_of_unbroken f.tokens_code.unbroken]
  exact expandStubs_of_settled f.tokens_completed.settled

end FunctionText

end MatlabOutline
