import MatlabOutline.Proofs.Declaration.MethodsOpening
import MatlabOutline.Proofs.Declaration.StubReading

/-!
Method declarations without a body are read as they were written. Main statement: a class whose `methods` block
holds one declaration on each line has these methods, in order, with the attributes of the block, and each is
documented by the comment behind it (`parseUnit_stubsText`).
-/

namespace MatlabOutline

open Lexer

/-- A class with a `methods` block that holds a declaration on each line. -/
structure StubsText where
  name : String
  opening : Line [(.keyword, "classdef"), (.name, name)]
  methodsOpening : MethodsOpening
  stubs : List StubText
  methodsClosing : Line [(.keyword, "end")]
  closing : Line [(.keyword, "end")]
  distinct : (stubs.map fun s => MethodDoc.normalName (String.ofList s.name.chars)).Nodup

namespace StubsText

variable (p : StubsText)

/-- The lines of the class, with these lines in its block. -/
def pieces (lines : List String) : List String :=
  p.opening.text :: p.methodsOpening.text :: (lines ++ [p.methodsClosing.text, p.closing.text])

def text : String :=
  String.join (p.pieces (p.stubs.map StubText.text))

/-- The class with a function for each declaration. -/
def expanded : String :=
  String.join (p.pieces (p.stubs.map StubText.expanded))

/-- One method for each declaration. -/
def doc (location : Location) (scope : String) : ClassDoc where
  name := p.name
  scope := scope
  methods := ⟨p.stubs.map fun s => (MethodDoc.normalName (String.ofList s.name.chars),
    MethodDoc.ofFunction (s.functionDoc scope) p.methodsOpening.attrs p.name)⟩
  location := location.withLine 1

/-- The lines of the block stand between those of the class. -/
theorem exists_lines (lines : List String) (ended : ∀ l ∈ lines, endsLine l = true) :
    ∃ opening header body methodsClosing closing,
      tokenize (String.join (p.pieces lines)) = opening ++ (header ++ (body ++ (methodsClosing ++ closing))) ∧
      opening.map Token.segment = (tokenize p.opening.text).map Token.segment ∧
      header.map Token.segment = (tokenize p.methodsOpening.text).map Token.segment ∧
      body.map Token.segment = ((lines.map tokenize).flatten).map Token.segment ∧
      methodsClosing.map Token.segment = (tokenize p.methodsClosing.text).map Token.segment ∧
      closing.map Token.segment = (tokenize p.closing.text).map Token.segment := by
  have whole : ∀ piece ∈ p.pieces lines, endsLine piece = true := by
    simp only [pieces, List.forall_mem_cons, List.forall_mem_append, List.not_mem_nil, false_imp_iff, implies_true,
      and_true]
    exact ⟨p.opening.isLine.endsLine, p.methodsOpening.endsLine_text, ended, p.methodsClosing.isLine.endsLine,
      p.closing.isLine.endsLine⟩
  have same := map_segment_tokenize_join whole
  simp only [pieces, List.map_cons, List.map_append, List.map_nil, List.flatten_cons, List.flatten_append,
    List.flatten_nil, List.append_nil] at same
  obtain ⟨opening, rest, cut, first, same⟩ := List.map_eq_append_iff.mp same
  obtain ⟨header, rest, rfl, second, same⟩ := List.map_eq_append_iff.mp same
  obtain ⟨body, rest, rfl, inner, same⟩ := List.map_eq_append_iff.mp same
  obtain ⟨methodsClosing, closing, rfl, third, last⟩ := List.map_eq_append_iff.mp same
  exact ⟨opening, header, body, methodsClosing, closing, cut, first, second, inner, third, last⟩

theorem exists_text :
    ∃ opening header body methodsClosing closing,
      tokenize p.text = opening ++ (header ++ (body ++ (methodsClosing ++ closing))) ∧
      opening.map Token.segment = (tokenize p.opening.text).map Token.segment ∧
      header.map Token.segment = (tokenize p.methodsOpening.text).map Token.segment ∧
      body.map Token.lexeme = (p.stubs.map StubText.lexemes).flatten ∧
      methodsClosing.map Token.segment = (tokenize p.methodsClosing.text).map Token.segment ∧
      closing.map Token.segment = (tokenize p.closing.text).map Token.segment := by
  obtain ⟨opening, header, body, methodsClosing, closing, cut, first, second, inner, third, last⟩ :=
    p.exists_lines (p.stubs.map StubText.text) (by simp [StubText.endsLine_text])
  refine ⟨opening, header, body, methodsClosing, closing, cut, first, second, ?_, third, last⟩
  rw [Token.map_lexeme_of_segments inner, List.map_flatten, List.map_map, List.map_map]
  congr 1
  refine List.map_congr_left fun s _ => ?_
  rw [Function.comp_apply, Function.comp_apply, Token.map_lexeme_tokenize, s.lexemes_text]

/-- The text has no line that goes on in the next one, and declares no function. -/
theorem forall_text : ∀ t ∈ tokenize p.text, t.isContinuation = false ∧ t.kind ≠ .nameFunction := by
  obtain ⟨opening, header, body, methodsClosing, closing, cut, first, second, inner, third, last⟩ := p.exists_text
  have line {ws : List (TokenKind × String)} {l : Line ws} {ts : List Token}
      (same : ts.map Token.segment = (tokenize l.text).map Token.segment)
      (plain : ∀ x ∈ ws, x.1 ≠ .comment ∧ x.1 ≠ .nameFunction) :
      ∀ t ∈ ts, t.isContinuation = false ∧ t.kind ≠ .nameFunction := by
    intro t member
    have kind := (l.isLine.of_segments (fun x member => (plain x member).2) same).forall_kind
      (p := fun kind => kind ≠ .comment ∧ kind ≠ .nameFunction) (by simp) (by simp) plain t member
    exact ⟨by simp [Token.isContinuation, kind.1], kind.2⟩
  have stubs (ss : List StubText) {ts : List Token}
      (read : ts.map Token.lexeme = (ss.map StubText.lexemes).flatten) :
      ∀ t ∈ ts, t.isContinuation = false ∧ t.kind ≠ .nameFunction := by
    induction ss generalizing ts with
    | nil => simp [List.map_eq_nil_iff.mp read]
    | cons s ss ih =>
      obtain ⟨one, rest, rfl, first, further⟩ := List.map_eq_append_iff.mp read
      exact List.forall_mem_append.mpr ⟨StubText.forall_of_lexemes first, ih further⟩
  have opened := Token.map_lexeme_of_segments second
  rw [Token.map_lexeme_tokenize, p.methodsOpening.lexemes_text] at opened
  rw [cut]
  simp only [List.forall_mem_append]
  exact ⟨line first (by simp), MethodsOpening.forall_of_lexemes opened, stubs _ inner, line third (by simp),
    line last (by simp)⟩

/-- Each declaration is written as a function, and the other lines are kept. -/
theorem expands_text : Expands {} (tokenize p.text) p.expanded {} := by
  obtain ⟨opening, header, body, methodsClosing, closing, cut, first, second, inner, third, last⟩ := p.exists_text
  have opened := (p.opening.isLine.of_segments (by simp) first).calm_classdef
  have headed : p.methodsOpening.Tokens header := MethodsOpening.tokens_of_cut cut second
  have closed := (p.methodsClosing.isLine.of_segments (by simp) third).calm (by simp) (n := .methods) (.inr rfl)
  have ended := (p.closing.isLine.of_segments (by simp) last).calm (by simp) (n := { blocks := ["classdef"] })
    (.inl rfl)
  have all : Expands {} _ _ {} := (Expands.kept opened first).append ((Expands.kept headed.calm second).append
    ((StubText.expands_lines p.stubs inner).append ((Expands.kept closed third).append (.kept ended last))))
  rw [cut, expanded, pieces]
  simpa [String.join_cons, String.join_append] using all

/-- The normal form of the text has a function for each declaration. -/
theorem normalize_text : normalize p.text = p.expanded := by
  have plain := p.forall_text
  have listed : lackingLists (tokenize p.text) = 0 := by
    rw [lackingLists_eq_zero_iff]
    exact fun before t after cut declared => absurd declared (plain t (by simp [cut])).2
  rw [normalize, joinContinuedLines_of_unbroken fun t member => (plain t member).1, completeSignatures,
    signatureTexts_of_listed listed, concat_tokenize]
  exact p.expands_text.expandStubs_eq

theorem tokenize_text :
    ∃ gap k rest, tokenize p.text = gap ++ k :: rest ∧ (∀ g ∈ gap, g.isWhitespace = true) ∧
      k.isKeyword "classdef" = true := by
  obtain ⟨opening, _, _, _, _, cut, first, _⟩ := p.exists_text
  exact (p.opening.isLine.of_segments (by simp) first).exists_keyword cut

end StubsText

namespace Reader

/-- A `methods` block gives one method for each declaration, with the attributes of the block. -/
theorem classBody_stubs {m : MethodsOpening} {opening : List Token} (header : m.Tokens opening) {ss : List StubText}
    {ts : List Token}
    (same : ts.map Token.segment = ((ss.map fun s => tokenize s.expanded).flatten).map Token.segment)
    {close : List Token} (ending : IsLine [(.keyword, "end")] close) (c : ClassDoc) (passed tail : List Token)
    (notes : List Note) :
    ∃ passed' gap, classBody c ⟨⟨passed, opening ++ (ts ++ (close ++ tail))⟩, notes⟩ =
        classBody ((ss.map fun s => s.functionDoc c.scope).foldl (fun c f => addMethod c m.attrs f) c)
          ⟨⟨passed', gap ++ tail⟩, notes⟩ ∧
      ∀ g ∈ gap, g.isSpacing = true := by
  obtain ⟨margin, k, list, gap, remark, e, line, rfl, white, keyword, read, level, blank, own, ends⟩ := header
  obtain ⟨kind, text⟩ := Prod.mk.inj keyword
  have here (rest : List Token) : Cursor.skipSpacing ⟨passed, margin ++ k :: rest⟩ =
      ⟨margin.reverse ++ passed, k :: rest⟩ :=
    Cursor.skip_over (fun g member => by simp [Token.isSpacing, blank_of_words white g member])
      (by simp [Token.isSpacing, Token.isWhitespace, Token.isNewline, kind]) (by simp [Token.isContinuation, kind]) _ _
  obtain ⟨passed₁, headed⟩ := blockHeader_methods (k := k) read level blank own ends (margin.reverse ++ passed)
    (ts ++ (close ++ tail)) notes
  obtain ⟨passed', gap', all, gaps⟩ := methodsFrom_stubs ss same ending m.attrs c passed₁ tail notes
  refine ⟨passed', gap', ?_, gaps⟩
  simp only [List.append_assoc, List.cons_append, List.nil_append]
  apply classBody_block (by rw [move, here]) kind (by simp [text])
  simp [memberBlock, text, methodsBlock, headed, all]

/-- A class is read from the functions that its declarations were written as. -/
theorem classDeclaration_stubs (p : StubsText) (place : Nat → Location) (scope : String) :
    ∃ front t rest cursor, tokenize p.expanded = front ++ t :: rest ∧ words front = [(.keyword, "classdef")] ∧
      classDeclaration place scope p.name { cursor := (Cursor.ofTokens (tokenize p.expanded)).skipSpacing } =
        .ok ({ p.doc {} scope with location := place t.line }, ⟨cursor, []⟩) := by
  obtain ⟨opening, header, body, methodsClosing, closing, cut, first, second, inner, third, last⟩ :=
    p.exists_lines (p.stubs.map StubText.expanded) (by simp [StubText.endsLine_expanded])
  have headed : p.methodsOpening.Tokens header := MethodsOpening.tokens_of_cut cut second
  have code (passed : List Token) : (Cursor.skipWhitespace
      ⟨passed, header ++ (body ++ (methodsClosing ++ closing))⟩).take? Token.isRemark = none := by
    obtain ⟨margin, k, list, gap, remark, e, line, rfl, white, keyword, -⟩ := headed
    have solid : k.isWhitespace = false := by
      rw [Token.isWhitespace, show k.kind = .keyword from congrArg Prod.fst keyword]
      rfl
    have read : words (margin ++ [k]) = [(.keyword, "methods")] := by
      rw [words_append, white, words_cons solid, keyword]
      rfl
    simpa using take?_remark_of_words read (by simp) passed _
  obtain ⟨front, t, rest, passed₁, shape, read, declared⟩ := classDeclaration_opening
    (p.opening.isLine.of_segments (by simp) first) code place scope
  obtain ⟨passed₂, gap, listed, gaps⟩ := classBody_stubs headed (by rw [inner, List.map_map]; rfl)
    (p.methodsClosing.isLine.of_segments (by simp) third) { name := p.name, scope := scope, location := place t.line }
    passed₁ closing []
  obtain ⟨cursor, closed⟩ := classBody_close gaps passed₂ [] (p.closing.isLine.of_segments (by simp) last) _
  refine ⟨front, t, rest, cursor, cut.trans shape, read, ?_⟩
  rw [StubsText.expanded, cut, declared, listed, closed, foldl_addMethod]
  · simp only [List.map_map]
    rfl
  · rw [List.map_map]
    exact p.distinct

end Reader

/-- Method declarations without a body are read as they were written: a class with these declarations, one on each
line of a `methods` block, has one method for each of them, in order, with its parameters, its outputs and the
attributes of the block. The comment behind a declaration documents it and nothing else does, and nothing is
reported. -/
theorem parseUnit_stubsText (p : StubsText) (location : Location) (scope : String) :
    parseUnit location p.text p.name scope = ⟨.ok (.cls (p.doc location scope)), []⟩ := by
  obtain ⟨gap, k, more, start, white, keyword⟩ := p.tokenize_text
  have header := removeHeader_of_classdef start white keyword
  obtain ⟨front, t, rest, cursor, cut, read, known⟩ :=
    Reader.classDeclaration_stubs p (placeOf location p.text) scope
  have line : t.line = 1 := by
    rw [line_of_tokenize cut, feeds_of_classdef (fun u member => by rw [cut]; simp [member]) read]
  have place : placeOf location p.text t.line = location.withLine 1 := by
    simp [placeOf, headerLines, header, line]
  rw [place] at known
  simp only [parseUnit, classify_of_classdef start white keyword, readerOf, header, p.normalize_text, known]
  rfl

/-- A declaration with all parts, where the comment holds what stands in a declaration. -/
def StubText.sample : StubText where
  margin := .space
  outputs := .bracket .empty (some (.comma ⟨"lo", by decide +kernel, by decide +kernel⟩ .empty .space
    (.last ⟨"hi", by decide +kernel, by decide +kernel⟩ .empty))) .space .space
  name := ⟨⟨"get", by decide +kernel, by decide +kernel⟩, ["Bounds"], by decide +kernel⟩
  ordinary := by simp [OutputsText.firstWord]
  parameters := .list .space [
    ⟨[], .name ⟨"obj", by decide +kernel, by decide +kernel⟩, [], .nil, .nil⟩, ⟨[' '], .unused, [], .space, .nil⟩]
  mark := some .space
  rest := ⟨.space, some " Returns; x = end. ".toList, by decide +kernel, .feed, by decide +kernel⟩

def StubsText.sample : StubsText where
  name := "Pool"
  opening := ⟨"classdef Pool\n", .of_words (by decide +kernel) (by decide +kernel)⟩
  methodsOpening :=
    { margin := .space
      attributes := some (.space, Spaced.listed (AttributeText.sample.take 4))
      accepted := by decide +kernel
      rest := ⟨.space, some " Below.".toList, by decide +kernel, .feed, by decide +kernel⟩ }
  stubs := [.sample,
    { margin := .empty
      outputs := .single ⟨"n", by decide +kernel, by decide +kernel⟩ .space .space
      name := ⟨⟨"set", by decide +kernel, by decide +kernel⟩, ["Count"], by decide +kernel⟩
      ordinary := by decide +kernel
      parameters := .none
      mark := none
      rest := .bare .carriage }]
  methodsClosing := ⟨" end\n", .of_words (by decide +kernel) (by decide +kernel)⟩
  closing := ⟨"end\r\n", .of_words (by decide +kernel) (by decide +kernel)⟩
  distinct := by decide +kernel

/-- The comment behind the first declaration documents it alone. -/
theorem parseUnit_stubsText_sample :
    parseUnit {} ("classdef Pool\n methods (sTATIC = true, access = \x7b?lib.end, Friend\x7d, " ++
        "DescriptioN = 'it''s (50%), \x7bx\x7d ...', ~Hidden) % Below.\n" ++
        " [lo, hi] = get.Bounds (obj, ~) ; % Returns; x = end. \nn = set.Count\r\n end\nend\r\n") "Pool" "s" =
      ⟨.ok (.cls
        { name := "Pool"
          scope := "s"
          methods := ⟨[
            ("get_Bounds",
              { function :=
                  { name := "get_Bounds", scope := "s", doc := some "Returns; x = end."
                    args := [{ name := "obj" }, { name := "~" }], returns := [{ name := "lo" }, { name := "hi" }] }
                attrs := ⟨[("Static", .bool true), ("Access", .list ["?lib.end", "Friend"]),
                  ("Description", .string "it's (50%), \x7bx\x7d ..."), ("Hidden", .bool false)]⟩
                className := "Pool" }),
            ("set_Count",
              { function := { name := "set_Count", scope := "s", returns := [{ name := "n" }] }
                attrs := ⟨[("Static", .bool true), ("Access", .list ["?lib.end", "Friend"]),
                  ("Description", .string "it's (50%), \x7bx\x7d ..."), ("Hidden", .bool false)]⟩
                className := "Pool" })]⟩
          location := { lines := some (1, 1) } }), []⟩ := by
  have text : StubsText.sample.text =
      "classdef Pool\n methods (sTATIC = true, access = \x7b?lib.end, Friend\x7d, " ++
        "DescriptioN = 'it''s (50%), \x7bx\x7d ...', ~Hidden) % Below.\n" ++
        " [lo, hi] = get.Bounds (obj, ~) ; % Returns; x = end. \nn = set.Count\r\n end\nend\r\n" := by
    decide +kernel
  have known := parseUnit_stubsText .sample {} "s"
  rw [text] at known
  exact known

end MatlabOutline
