import MatlabOutline.Proofs.Declaration.EntryReading
import MatlabOutline.Proofs.Declaration.SignatureText

/-!
Method declarations without a body, as they are written on a line. Main statements: such a line is read as the
lexemes that it is made of (`StubText.lexemes_text`), it is written as a function that ends on the same line
(`StubText.expandStub_tokens`), and that is read as the words of a signature with an `end` behind them
(`StubText.tokens_expanded`).
-/

namespace MatlabOutline

open Lexer Scan

/-- The word that a declaration begins with, unless it begins with a bracket. -/
def OutputsText.firstWord (name : PlainWord) : OutputsText → Option PlainWord
  | none => some name
  | single word _ _ => some word
  | bracket _ _ _ _ => Option.none

structure StubText where
  margin : Gap
  outputs : OutputsText
  name : TypeText
  /-- A block word would open a block here. -/
  ordinary : ∀ w ∈ outputs.firstWord name.head, isBlockWord w.text = false
  parameters : ParametersText
  /-- The white space before the semicolon behind the declaration, if there is one. -/
  mark : Option Gap
  rest : LineRest

theorem TypeText.isDottedChars (t : TypeText) : isDottedChars t.chars = true := by
  obtain ⟨w, fields, identifiers⟩ := t
  have joined {cs : List Char} (first : MatlabOutline.isDottedChars cs = true) :
      MatlabOutline.isDottedChars (cs ++ fields.flatMap fun f => '.' :: f.toList) = true := by
    induction fields generalizing cs with
    | nil => simpa using first
    | cons f fields ih =>
      rw [List.forall_mem_cons] at identifiers
      have longer := ih identifiers.2 (isDottedChars_append first (isDottedChars_of_identifier identifiers.1))
      simpa using longer
  exact joined (isDottedChars_of_identifier w.identifier)

namespace StubText

variable (s : StubText)

def declaration : DeclarationText where
  outputs := s.outputs
  name := String.ofList s.name.chars
  dotted := by rw [isDottedIdentifier_eq, String.toList_ofList, s.name.isDottedChars]
  parameters := s.parameters

def markChars : List Char :=
  s.mark.elim [] fun g => g.chars ++ [';']

def chars : List Char :=
  s.margin.chars ++ (s.declaration.chars ++ (s.markChars ++ s.rest.chars))

def text : String :=
  String.ofList s.chars

def codeLexemes : List (TokenKind × List Char) :=
  s.outputs.lexemes ++ (s.name.lexemes ++ s.parameters.lexemes)

def markLexemes : List (TokenKind × List Char) :=
  s.mark.elim [] fun g => g.lexemes ++ [(.punctuation, [';'])]

def lexemes : List (TokenKind × List Char) :=
  s.margin.lexemes ++ (s.codeLexemes ++ (s.markLexemes ++ s.rest.lexemes))

@[simp] theorem spelled_codeLexemes : spelled s.codeLexemes = s.declaration.chars := by
  simp [codeLexemes, DeclarationText.chars, declaration, spelled_append]

@[simp] theorem spelled_markLexemes : spelled s.markLexemes = s.markChars := by
  cases mark : s.mark <;> simp [markLexemes, markChars, mark, spelled_append]

end StubText

/-- At the beginning of a line only block words are read otherwise. -/
theorem Lexer.lexemes_initial_word {w : PlainWord} (ordinary : isBlockWord w.text = false) {z : List Char}
    (stop : z.head?.any isIdentRest = false) :
    lexemes .initial (w.text.toList ++ z) = lexemes {} (w.text.toList ++ z) := by
  have word := w.isIdentifierChars
  have free := w.not_isReserved
  rw [← String.ofList_toList (s := w.text)] at ordinary
  rcases chars : w.text.toList with _ | ⟨c, cs⟩
  · simp [chars, isIdentifierChars] at word
  rw [chars] at word free ordinary
  rw [List.cons_append, lexemes_of_step (step_word rfl (.inr ordinary) rfl word free stop),
    lexemes_of_step (step_word rfl (.inl rfl) rfl word free stop)]
  rfl

namespace StubText

variable (s : StubText) {r : List Char}

theorem start (z : List Char) : (s.name.chars ++ z).head?.any isIdentStart = true := by
  have start := s.declaration.start z
  rwa [declaration, String.toList_ofList] at start

theorem leads_code (breaks : Breaks r) : Leads {} s.codeLexemes {} r := by
  have behind : Breaks (spelled s.parameters.lexemes ++ r) := by
    rw [s.parameters.spelled_lexemes]
    exact s.parameters.breaks breaks
  have named := s.name.reads (s.parameters.reads breaks.2) behind.1 behind.2
  have outputs : Leads {} s.outputs.lexemes { signature := s.outputs.after .none }
      (spelled (s.name.lexemes ++ s.parameters.lexemes) ++ r) :=
    s.outputs.leads (by simp) (by rw [spelled_append, s.name.spelled_lexemes, List.append_assoc]; exact s.start _)
  have after : s.outputs.after .none = .none := by cases s.outputs <;> rfl
  rw [after] at outputs
  exact .append outputs (.of_reads named)

/-- A declaration is read at the beginning of a line as in the middle of it. -/
theorem lexemes_initial_code (breaks : Breaks r) :
    Lexer.lexemes .initial (s.declaration.chars ++ r) = Lexer.lexemes {} (s.declaration.chars ++ r) := by
  have behind := s.parameters.breaks breaks
  have ordinary := s.ordinary
  rw [DeclarationText.chars, List.append_assoc, List.append_assoc, declaration, String.toList_ofList]
  simp only
  cases outputs : s.outputs with
  | none =>
    rw [outputs] at ordinary
    rw [OutputsText.chars, List.nil_append, TypeText.chars, List.append_assoc]
    refine lexemes_initial_word (ordinary _ rfl) ?_
    cases s.name.fields with
    | nil => exact behind.1
    | cons => simp; decide
  | single word before after =>
    rw [outputs] at ordinary
    rw [OutputsText.chars, List.append_assoc, List.append_assoc]
    exact lexemes_initial_word (ordinary _ rfl) (Breaks.gap (.cons (by decide) (by decide) _) before).1
  | bracket =>
    rw [OutputsText.chars, List.cons_append, Lexer.lexemes, Lexer.lexemes]
    rfl

theorem breaks_mark : Breaks (s.markChars ++ s.rest.chars) := by
  rw [markChars]
  cases s.mark with
  | none => exact s.rest.endsSignature.breaks
  | some g =>
    rw [Option.elim_some, List.append_assoc]
    exact Breaks.gap (.cons (by decide) (by decide) _) g

theorem leads_mark (r : List Char) : Leads {} s.markLexemes {} r := by
  rw [markLexemes]
  cases s.mark with
  | none => exact .nil {} r
  | some g =>
    have semicolon : Leads {} [(.punctuation, [';'])] {} r := .mark (by simp)
    exact .append (.solid g rfl (by simp; decide)) semicolon

/-- The line of a declaration is read as it is written. -/
theorem lexemes_text : Lexer.lexemes .initial s.text.toList = s.lexemes := by
  have behind : spelled (s.markLexemes ++ s.rest.lexemes) = s.markChars ++ s.rest.chars := by
    rw [spelled_append, s.spelled_markLexemes, s.rest.spelled_lexemes]
  have margin : Leads .initial s.margin.lexemes .initial
      (spelled (s.codeLexemes ++ (s.markLexemes ++ s.rest.lexemes)) ++ []) := by
    refine .solid s.margin rfl ?_
    rw [spelled_append, s.spelled_codeLexemes, List.append_assoc]
    exact s.declaration.solid _
  have code : Leads .initial s.codeLexemes {} (spelled (s.markLexemes ++ s.rest.lexemes) ++ []) := by
    have inside := s.leads_code s.breaks_mark
    rw [List.append_nil, behind, Leads, s.spelled_codeLexemes, s.lexemes_initial_code s.breaks_mark,
      ← s.spelled_codeLexemes, inside]
  have line := Leads.append margin (.append code (.append (s.leads_mark _) (s.rest.leads rfl (.inl rfl) [])))
  rw [Leads, Lexer.lexemes, List.append_nil, List.append_nil] at line
  rw [text, String.toList_ofList, StubText.lexemes, ← line]
  simp [chars, spelled_append, s.rest.spelled_lexemes]

end StubText

/-- A declaration ends with a name or a parenthesis. -/
theorem DeclarationText.exists_last (d : DeclarationText) :
    ∃ front c, d.chars = front ++ [c] ∧ isBlank c = false ∧ c ≠ ';' := by
  have closed (cs : List Char) : ∃ front c, cs ++ [')'] = front ++ [c] ∧ isBlank c = false ∧ c ≠ ';' :=
    ⟨cs, ')', rfl, by decide, by decide⟩
  have append (cs : List Char) {ds : List Char}
      (last : ∃ front c, ds = front ++ [c] ∧ isBlank c = false ∧ c ≠ ';') :
      ∃ front c, cs ++ ds = front ++ [c] ∧ isBlank c = false ∧ c ≠ ';' := by
    obtain ⟨front, c, rfl, solid, other⟩ := last
    exact ⟨cs ++ front, c, (List.append_assoc ..).symm, solid, other⟩
  have named : ∃ front c, d.name.toList = front ++ [c] ∧ isBlank c = false ∧ c ≠ ';' := by
    obtain ⟨p, ps, name, word, parts⟩ := exists_parts_of_isDottedChars d.isDottedChars
    have ends {q : List Char} (word : isIdentifierChars q = true) :
        ∃ front c, q = front ++ [c] ∧ isBlank c = false ∧ c ≠ ';' := by
      rcases List.eq_nil_or_concat q with rfl | ⟨front, c, rfl⟩
      · simp [isIdentifierChars] at word
      · have ident : isIdentRest c = true :=
          List.all_eq_true.mp (all_isIdentRest_of_identifier word) c (by simp)
        exact ⟨front, c, by simp, not_isBlank_of_isIdentRest c ident, ne_of_isIdentRest ident (by decide)⟩
    rw [name]
    rcases List.eq_nil_or_concat ps with rfl | ⟨ps, q, rfl⟩
    · simpa using ends word
    · rw [List.concat_eq_append, List.flatMap_append, List.flatMap_singleton]
      exact append _ (append _ (append ['.'] (ends (parts q (by simp)))))
  refine append _ ?_
  cases d.parameters with
  | none => simpa [ParametersText.chars] using named
  | empty before inside => exact append _ (append before.chars (closed ('(' :: inside.chars)))
  | list before items => exact append _ (append before.chars (closed ('(' :: _)))

/-- White space around a semicolon is cut away with it. -/
theorem trimDeclaration_marked (d : DeclarationText) (mark : Option Gap) (w : Gap) :
    trimDeclaration (d.chars ++ (mark.elim [] (fun g => g.chars ++ [';']) ++ w.chars)) = d.chars := by
  obtain ⟨front, c, chars, solid, other⟩ := d.exists_last
  have blank (g : Gap) : ∀ c ∈ g.chars, isBlank c = true := fun c member => (g.blank c member).1
  have unmarked (g : Gap) : Text.trimEndBy (· == ';') (front ++ [c] ++ g.chars) = front ++ [c] ++ g.chars := by
    rcases List.eq_nil_or_concat g.chars with empty | ⟨w, b, gap⟩
    · rw [empty, List.append_nil, Text.trimEndBy_concat (by simpa using other)]
    · have away : b ≠ ';' := by
        rintro rfl
        exact absurd (blank g ';' (by simp [gap])) (by decide)
      rw [gap, List.concat_eq_append, ← List.append_assoc, Text.trimEndBy_concat (by simpa using away)]
  have whole (g : Gap) : Text.trimEnd (front ++ [c] ++ g.chars) = front ++ [c] := by
    rw [Text.trimEnd, Text.trimEndBy_append (blank g), Text.trimEndBy_concat solid]
  have none := unmarked .empty
  have still := whole .empty
  simp only [Gap.chars_empty, List.append_nil] at none still
  rw [chars, trimDeclaration]
  cases mark with
  | none => rw [Option.elim_none, List.nil_append, whole, none, still]
  | some g =>
    have cut : Text.trimEnd (front ++ [c] ++ (g.chars ++ [';'] ++ w.chars)) = front ++ [c] ++ g.chars ++ [';'] := by
      rw [← List.append_assoc, ← List.append_assoc, Text.trimEnd, Text.trimEndBy_append (blank w),
        Text.trimEndBy_concat (by decide)]
    rw [Option.elim_some, cut, Text.trimEndBy_append (by simp), unmarked, whole]

theorem expandStub_parts {margin code ending : List Token} (white : ∀ t ∈ margin, t.isWhitespace = true)
    (solid : code.head?.any (!·.isWhitespace) = true) (within : ∀ t ∈ code, endsDeclaration t = false)
    (ends : ending.head?.any endsDeclaration = true) :
    expandStub (margin ++ (code ++ ending)) =
      Token.concat margin ++ "function " ++ String.ofList (trimDeclaration (Token.concat code).toList) ++ "; end" ++
        (if ending.head?.any Token.isRemark then " " else "") ++ Token.concat ending := by
  obtain ⟨t, code, rfl⟩ : ∃ u us, code = u :: us := by
    rcases code with _ | ⟨u, us⟩
    · simp at solid
    · exact ⟨u, us, rfl⟩
  obtain ⟨e, ending, rfl⟩ : ∃ u us, ending = u :: us := by
    rcases ending with _ | ⟨u, us⟩
    · simp at ends
    · exact ⟨u, us, rfl⟩
  have first : t.isWhitespace = false := by simpa using solid
  have last : endsDeclaration e = true := by simpa using ends
  have front : (margin ++ (t :: code ++ e :: ending)).takeWhile Token.isWhitespace = margin := by
    rw [List.takeWhile_append_of_pos white]
    simp [first]
  have back : (margin ++ (t :: code ++ e :: ending)).dropWhile Token.isWhitespace = t :: code ++ e :: ending := by
    rw [List.dropWhile_append_of_pos white]
    simp [first]
  have inside : ∀ u ∈ t :: code, (!endsDeclaration u) = true := fun u member => by rw [within u member]; rfl
  rw [expandStub, front, back]
  simp only [List.takeWhile_append_of_pos inside, List.dropWhile_append_of_pos inside, List.takeWhile_cons,
    List.dropWhile_cons, last, Bool.not_true, Bool.false_eq_true, if_false, List.append_nil]

/-- The rest of a line with one space before its comment. -/
def LineRest.narrow (l : LineRest) : LineRest where
  gap := if l.remark.isSome then .space else .empty
  remark := l.remark
  within := l.within
  ending := l.ending
  apart := by
    have joined := l.apart
    cases remark : l.remark with
    | none =>
      rintro last
      simp at last
    | some body =>
      rw [remark] at joined
      intro last
      exact joined (by simpa [List.getLast?_cons] using last)

section Inline

theorem NamesText.inline (t : NamesText) : ∀ x ∈ t.lexemes, x.1.isInline = true := by
  induction t with
  | last name after =>
    rw [lexemes, List.forall_mem_cons]
    exact ⟨rfl, inline_gap _⟩
  | space name gap _ more ih =>
    rw [lexemes, List.forall_mem_cons, List.forall_mem_append]
    exact ⟨rfl, inline_gap _, ih⟩
  | comma name before after more ih =>
    rw [lexemes, List.forall_mem_cons, List.forall_mem_append, List.forall_mem_cons, List.forall_mem_append]
    exact ⟨rfl, inline_gap _, rfl, inline_gap _, ih⟩

theorem OutputsText.inline (o : OutputsText) : ∀ x ∈ o.lexemes, x.1.isInline = true := by
  cases o with
  | none => simp [lexemes]
  | single name before after =>
    rw [lexemes, List.forall_mem_cons, List.forall_mem_append, List.forall_mem_cons]
    exact ⟨rfl, inline_gap _, rfl, inline_gap _⟩
  | bracket lead names before after =>
    have listed : ∀ x ∈ names.elim [] NamesText.lexemes, x.1.isInline = true := by
      cases names with
      | none => simp
      | some names => exact names.inline
    rw [lexemes, List.forall_mem_cons, List.forall_mem_append, List.forall_mem_append, List.forall_mem_cons,
      List.forall_mem_append, List.forall_mem_cons]
    exact ⟨rfl, inline_gap _, listed, rfl, inline_gap _, rfl, inline_gap _⟩

theorem ParametersText.inline (p : ParametersText) : ∀ x ∈ p.lexemes, x.1.isInline = true := by
  have item (p : ParameterText) : ∀ x ∈ p.lexemes, x.1.isInline = true := by
    cases p <;> simp [ParameterText.lexemes, TokenKind.isInline]
  cases p with
  | none => simp [lexemes]
  | empty before inside =>
    rw [lexemes, List.forall_mem_append, List.forall_mem_cons, List.forall_mem_append, List.forall_mem_singleton]
    exact ⟨inline_gap _, rfl, inline_gap _, rfl⟩
  | list before items =>
    rw [lexemes, List.forall_mem_append]
    exact ⟨inline_gap _, inline_bracket item _ _ items⟩

end Inline

namespace StubText

variable (s : StubText)

def expandedChars : List Char :=
  s.margin.chars ++ ("function ".toList ++ (s.declaration.chars ++ ("; end".toList ++ s.rest.narrow.chars)))

/-- The declaration as a function with an empty body. -/
def expanded : String :=
  String.ofList s.expandedChars

theorem inline_code : ∀ x ∈ s.codeLexemes ++ (s.markLexemes ++ s.rest.gap.lexemes), x.1.isInline = true := by
  rw [codeLexemes]
  simp only [List.forall_mem_append]
  refine ⟨⟨s.outputs.inline, s.name.inline, s.parameters.inline⟩, ?_, inline_gap _⟩
  rw [markLexemes]
  cases s.mark with
  | none => simp
  | some g =>
    rw [Option.elim_some, List.forall_mem_append, List.forall_mem_singleton]
    exact ⟨inline_gap _, rfl⟩

theorem inline_line : ∀ x ∈ s.margin.lexemes ++ (s.codeLexemes ++ s.markLexemes), x.1.isInline = true := by
  have code := s.inline_code
  simp only [List.forall_mem_append] at code ⊢
  exact ⟨inline_gap _, code.1, code.2.1⟩

theorem lexemes_eq : s.lexemes = (s.margin.lexemes ++ (s.codeLexemes ++ s.markLexemes)) ++ s.rest.lexemes := by
  simp [StubText.lexemes]

theorem exists_first : ∃ x xs, s.codeLexemes = x :: xs ∧ x.1 ≠ .whitespace := by
  rw [codeLexemes]
  cases s.outputs with
  | none => exact ⟨_, _, rfl, by simp⟩
  | single => exact ⟨_, _, rfl, by simp⟩
  | bracket => exact ⟨_, _, rfl, by simp⟩

section Tokens

variable {s} {ts : List Token} (read : ts.map Token.lexeme = s.lexemes)
include read

/-- The tokens of the line: its margin, its code and what ends it. -/
theorem parts : ∃ margin t code ending, ts = margin ++ (t :: code ++ ending) ∧
    (∀ u ∈ margin, u.isWhitespace = true) ∧ t.isWhitespace = false ∧ (∀ u ∈ t :: code, u.kind.isInline = true) ∧
    Token.concat margin = String.ofList s.margin.chars ∧
    Token.concat (t :: code) = String.ofList (s.declaration.chars ++ (s.markChars ++ s.rest.gap.chars)) ∧
    ending.map Token.lexeme = s.rest.remarkLexemes ++ [(.newline, s.rest.ending.chars)] := by
  have shape : s.lexemes = s.margin.lexemes ++ ((s.codeLexemes ++ (s.markLexemes ++ s.rest.gap.lexemes)) ++
      (s.rest.remarkLexemes ++ [(.newline, s.rest.ending.chars)])) := by
    simp [StubText.lexemes, LineRest.lexemes]
  rw [shape] at read
  obtain ⟨margin, more, rfl, gap, behind⟩ := List.map_eq_append_iff.mp read
  obtain ⟨code, ending, rfl, inside, last⟩ := List.map_eq_append_iff.mp behind
  have inline : ∀ u ∈ code, u.kind.isInline = true := fun u member =>
    s.inline_code u.lexeme (inside ▸ List.mem_map_of_mem member)
  have spelled_code := Token.concat_of_lexemes inside
  obtain ⟨x, xs, first, solid⟩ := s.exists_first
  rw [first, List.cons_append] at inside
  obtain ⟨t, code, rfl, same, -⟩ := Token.eq_cons_of_lexemes inside
  refine ⟨margin, t, code, ending, rfl, Token.white_of_lexemes gap, by simp [Token.isWhitespace, same, solid], inline,
    ?_, ?_, last⟩
  · rw [Token.concat_of_lexemes gap, Gap.spelled_lexemes]
  · rw [spelled_code, spelled_append, spelled_append, s.spelled_codeLexemes, s.spelled_markLexemes, Gap.spelled_lexemes]

theorem isStubLine_tokens : isStubLine ts = true := by
  obtain ⟨margin, t, code, ending, rfl, white, solid, inline, -⟩ := parts read
  rw [List.forall_mem_cons] at inline
  have kind := TokenKind.ne_of_isInline inline.1
  rw [isStubLine, List.dropWhile_append_of_pos white, List.cons_append, List.dropWhile_cons, if_neg (by simp [solid])]
  simp [Token.isNewline, kind]

/-- The declaration is written between the keyword and its `end`, and the comment stays behind it. -/
theorem expandStub_tokens : expandStub ts = s.expanded := by
  obtain ⟨margin, t, code, ending, rfl, white, solid, inline, spelled_margin, spelled_code, last⟩ := parts read
  have within : ∀ u ∈ t :: code, endsDeclaration u = false := by
    intro u member
    have kind := TokenKind.ne_of_isInline (inline u member)
    simp [endsDeclaration, Token.isRemark, Token.isNewline, kind]
  have ends : ending.head?.any endsDeclaration = true ∧
      (if ending.head?.any Token.isRemark then " " else "") ++ Token.concat ending =
        String.ofList s.rest.narrow.chars := by
    have spelled_ending := Token.concat_of_lexemes last
    rw [spelled_append, s.rest.spelled_remarkLexemes] at spelled_ending
    rw [spelled_ending, LineRest.chars]
    rw [LineRest.remarkLexemes] at last
    cases remark : s.rest.remark with
    | none =>
      rw [remark] at last
      obtain ⟨e, r, rfl, kind, -⟩ := Token.eq_cons_of_lexemes last
      simp [endsDeclaration, Token.isNewline, Token.isRemark, kind, LineRest.remarkChars, LineRest.narrow, remark]
    | some body =>
      rw [remark] at last
      obtain ⟨e, r, rfl, kind, text, -⟩ := Token.eq_cons_of_lexemes last
      have own := Token.isRemark_of_text kind text
      simp [endsDeclaration, own, LineRest.remarkChars, LineRest.narrow, remark, String.ofList_append]
  rw [expandStub_parts white (by simp [solid]) within ends.1, spelled_margin, spelled_code, String.append_assoc, ends.2,
    String.toList_ofList, markChars, trimDeclaration_marked, expanded, expandedChars]
  simp only [String.ofList_append, String.ofList_toList, String.append_assoc]

end Tokens

/-- The `end` behind an expanded declaration. -/
def closingLexemes : List (TokenKind × List Char) :=
  [(.punctuation, [';']), (.whitespace, [' ']), (.keyword, "end".toList)]

def expandedLexemes : List (TokenKind × List Char) :=
  s.margin.lexemes ++
    (((.keyword, "function".toList) :: (.whitespace, [' ']) :: s.declaration.lexemes) ++ closingLexemes)

theorem leads_closing {r : List Char} (breaks : Breaks r) : Leads {} closingLexemes {} r := by
  have kind : wordKind {} "end" r = .keyword := by rw [wordKind, if_pos (by decide)]
  have close : Leads {} [(.keyword, "end".toList)] {} r :=
    .settle {} (.keyword rfl rfl (by decide) (by decide) kind breaks.1) breaks.2
  have gap : Leads {} Gap.space.lexemes {} (spelled [(.keyword, "end".toList)] ++ r) :=
    .solid _ rfl (by simp; decide)
  exact .append (.mark (by simp)) (.append gap close)

/-- The expanded line is read as it is written. -/
theorem lexemes_expanded : Lexer.lexemes .initial s.expanded.toList = s.expandedLexemes ++ s.rest.narrow.lexemes := by
  have behind : spelled (closingLexemes ++ s.rest.narrow.lexemes) = "; end".toList ++ s.rest.narrow.chars := by
    rw [spelled_append, s.rest.narrow.spelled_lexemes]
    rfl
  have margin : Leads .initial s.margin.lexemes .initial (spelled (((.keyword, "function".toList) ::
      (.whitespace, [' ']) :: s.declaration.lexemes) ++ (closingLexemes ++ s.rest.narrow.lexemes)) ++ []) := by
    refine .solid s.margin rfl ?_
    rw [List.cons_append, spelled_cons, List.append_assoc]
    exact head?_any_append_left (by decide) _
  have signature : Leads .initial ((.keyword, "function".toList) :: (.whitespace, [' ']) :: s.declaration.lexemes) {}
      (spelled (closingLexemes ++ s.rest.narrow.lexemes) ++ []) := by
    rw [List.append_nil, behind]
    exact s.declaration.leads .space (fun empty => absurd empty (by simp)) ⟨rfl, rfl⟩ rfl rfl
  have closing : Leads {} closingLexemes {} (spelled s.rest.narrow.lexemes ++ []) := by
    rw [List.append_nil, s.rest.narrow.spelled_lexemes]
    exact leads_closing s.rest.narrow.endsSignature.breaks
  have line := Leads.append margin (.append signature (.append closing (s.rest.narrow.leads rfl (.inl rfl) [])))
  rw [Leads, Lexer.lexemes, List.append_nil, List.append_nil] at line
  rw [expanded, String.toList_ofList, expandedLexemes, List.append_assoc, List.append_assoc, ← line]
  simp [expandedChars, closingLexemes, spelled_append, s.rest.narrow.spelled_lexemes]

/-- A run of tokens from which the method is read. -/
def Tokens (ts : List Token) : Prop :=
  ∃ ws front remark e, ts = front ++ (Option.toList remark ++ [e]) ∧
    SignatureWords s.outputs.names (String.ofList s.name.chars) s.parameters.names ws ∧
    words front = ws ++ [(.punctuation, ";"), (.keyword, "end")] ∧
    remark.map Token.text = s.rest.comment ∧ (∀ t ∈ remark, t.isRemark = true) ∧ e.kind = .newline

theorem tokens_expanded {ts : List Token} (same : ts.map Token.segment = (tokenize s.expanded).map Token.segment) :
    s.Tokens ts := by
  have lexed := Token.map_lexeme_of_segments same
  rw [Token.map_lexeme_tokenize, s.lexemes_expanded] at lexed
  obtain ⟨front, remark, e, cut, read, said, own, ends⟩ := s.rest.narrow.split_lexemes lexed
  refine ⟨_, front, remark, e, cut, s.declaration.signatureWords, ?_, said, own, ends⟩
  rw [read, expandedLexemes, wordsOf_gap, wordsOf_append, wordsOf_cons (by simp), String.ofList_toList]
  rfl

end StubText

end MatlabOutline
