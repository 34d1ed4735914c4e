import MatlabOutline.Proofs.Declaration.ClassOpening
import MatlabOutline.Proofs.Declaration.EntryReading

/-!
Entries of a `properties` block are read as they were written. Main statement: a class with such a block
has one property for each entry, in order, with the sizes, types, validators and default values of the
entries (`parseUnit_propertiesText`).
-/

namespace MatlabOutline

open Lexer

namespace Token

/-- What a value holds besides brackets leaves a nesting as it is. -/
theorem step_of_isValuePart {t : Token} {n : Nesting} (part : t.isValuePart n.brackets = true)
    (opens : t.isOpenBracket = false) (closes : t.isCloseBracket = false) (inside : n.Inside) :
    n.step t = n := by
  by_cases keyword : t.kind = .keyword
  · have within : n.brackets ≠ 0 ∧ t.text = "end" := by
      simp only [isValuePart, keyword, bne_self_eq_false, Bool.false_or, Bool.and_eq_true, bne_iff_ne,
        beq_iff_eq] at part
      exact part.1.2
    apply Nesting.step_plain inside opens closes
    · simp [opensBlock, within.2, openingWords]
    · simp [isForeign, isKeyword, is, within.2]
    · exact .inr within.1
  · simp [Nesting.step, keyword, opens, closes]

end Token

/-- A value stays outside of `methods` blocks, and closes the brackets that are open. -/
theorem sheltered_of_closesValue {depth : Nat} {ts : List Token} (closed : closesValue depth ts = true)
    {n : Nesting} (inside : n.Inside) (open_ : n.brackets = depth) :
    Sheltered n ts ∧ ts.foldl Nesting.step n = { n with brackets := 0 } := by
  fun_induction closesValue depth ts generalizing n with
  | case1 depth =>
    obtain rfl : depth = 0 := by simpa using closed
    refine ⟨trivial, ?_⟩
    rw [← open_]
    rfl
  | case2 depth t ts opens ih =>
    have deeper : Nesting.Inside { n with brackets := n.brackets + 1 } := inside
    obtain ⟨rest, reached⟩ := ih closed deeper (by rw [open_])
    rw [Sheltered, List.foldl_cons, Nesting.step_open opens]
    exact ⟨⟨inside.not_inMethods, rest⟩, reached⟩
  | case3 depth t ts opens closes ih =>
    rw [Bool.and_eq_true] at closed
    have outer : Nesting.Inside { n with brackets := n.brackets - 1 } := inside
    obtain ⟨rest, reached⟩ := ih closed.2 outer (by rw [open_])
    rw [Sheltered, List.foldl_cons, Nesting.step_close closes]
    exact ⟨⟨inside.not_inMethods, rest⟩, reached⟩
  | case4 depth t ts opens closes ih =>
    rw [Bool.and_eq_true] at closed
    rw [Bool.not_eq_true] at opens closes
    subst open_
    obtain ⟨rest, reached⟩ := ih closed.2 inside rfl
    rw [Sheltered, List.foldl_cons, Token.step_of_isValuePart closed.1 opens closes inside]
    exact ⟨⟨inside.not_inMethods, rest⟩, reached⟩

namespace EntryText

def text (e : EntryText) : String :=
  String.ofList e.chars

theorem tokens_text (e : EntryText) : e.Tokens (tokenize e.text) := by
  obtain ⟨xs, nl, isValue, read⟩ := e.lexemes_chars
  refine ⟨xs, nl, isValue, ?_⟩
  have whole := read []
  rw [List.append_nil, lexemes.eq_1] at whole
  rw [Token.map_lexeme_tokenize, text, String.toList_ofList, whole]

theorem Tokens.of_segments {e : EntryText} {ts us : List Token} (tokens : e.Tokens ts)
    (same : us.map Token.segment = ts.map Token.segment) : e.Tokens us := by
  obtain ⟨xs, nl, isValue, read⟩ := tokens
  exact ⟨xs, nl, isValue, by rw [Token.map_lexeme_of_segments same, read]⟩

/-- Up to its line end an entry holds what a value holds. -/
theorem Tokens.closed {e : EntryText} {ts : List Token} (tokens : e.Tokens ts) :
    ∃ front feed, ts = front ++ [feed] ∧ closesValue 0 front = true ∧
      (∀ t ∈ front, t.kind ≠ .nameFunction) ∧ feed.kind = .newline := by
  obtain ⟨xs, nl, isValue, read⟩ := tokens
  have held : Held 0 (gapLexemes e.margin ++ (.name, e.name.text.toList) :: e.specLexemes) :=
    (Held.gap e.margin).append (.word (by simp) e.held_spec)
  rw [← List.cons_append, ← List.append_assoc, ← List.append_assoc] at read
  obtain ⟨front, last, rfl, frontRead, lastRead⟩ := List.map_eq_append_iff.mp read
  obtain ⟨feed, rest, rfl, ends, -, nothing⟩ := Token.eq_cons_of_lexemes lastRead
  obtain rfl := List.map_eq_nil_iff.mp nothing
  refine ⟨front, feed, rfl, ?_, ?_, ends⟩
  · rw [closesValue_of_lexemes frontRead, held.balanced, isValue.closed.1]
  · intro t member
    have inside : t.lexeme ∈ front.map Token.lexeme := List.mem_map_of_mem member
    rw [frontRead] at inside
    rcases List.mem_append.mp inside with before | behind
    · exact (held.plain _ before).2
    · exact isValue.closed.2 _ behind

/-- The nesting in a `properties` block of a class. -/
def within : Nesting :=
  { blocks := ["properties", "classdef"] }

theorem inside_within : within.Inside := by
  constructor <;> simp [within]

theorem Tokens.calm {e : EntryText} {ts : List Token} (tokens : e.Tokens ts) : Calm within ts within := by
  obtain ⟨front, feed, rfl, closed, -, ends⟩ := tokens.closed
  obtain ⟨sheltered, reached⟩ := sheltered_of_closesValue closed inside_within rfl
  have same : ({ within with brackets := 0 } : Nesting) = within := rfl
  have still : within.step feed = within := by
    simp [Nesting.step, ends, Token.isOpenBracket, Token.isCloseBracket, Token.isPunct, Token.is]
  rw [same] at reached
  refine ⟨by simp [Token.isNewline, ends], ?_, ?_⟩
  · apply settled_of_sheltered fun l member => mem_tokenLines_ne member
    rw [flatten_tokenLines, sheltered_append, reached]
    exact ⟨sheltered, inside_within.not_inMethods, trivial⟩
  · rw [List.foldl_append, reached, List.foldl_cons, still, List.foldl_nil]

/-- An entry holds no comment, and declares no function. -/
theorem Tokens.kind_ne {e : EntryText} {ts : List Token} (tokens : e.Tokens ts) :
    ∀ t ∈ ts, t.kind ≠ .comment ∧ t.kind ≠ .nameFunction := by
  obtain ⟨front, feed, rfl, closed, plain, ends⟩ := tokens.closed
  rw [List.forall_mem_append, List.forall_mem_singleton]
  refine ⟨fun t member => ⟨?_, plain t member⟩, by simp [ends]⟩
  rw [closesValue_of_lexemes rfl] at closed
  exact (isCode_of_closesValue closed t.lexeme (List.mem_map_of_mem member)).1

theorem AllTokens.calm {es : List EntryText} {ts : List Token} (tokens : AllTokens es ts) :
    Calm within ts within := by
  induction tokens with
  | nil => exact ⟨rfl, trivial, rfl⟩
  | cons first _ ih => exact first.calm.append ih

theorem AllTokens.kind_ne {es : List EntryText} {ts : List Token} (tokens : AllTokens es ts) :
    ∀ t ∈ ts, t.kind ≠ .comment ∧ t.kind ≠ .nameFunction := by
  induction tokens with
  | nil => simp
  | cons first _ ih => exact List.forall_mem_append.mpr ⟨first.kind_ne, ih⟩

theorem allTokens_of_segments (es : List EntryText) {us : List Token}
    (same : us.map Token.segment = ((es.map fun e => tokenize e.text).flatten).map Token.segment) :
    AllTokens es us := by
  induction es generalizing us with
  | nil =>
    obtain rfl := List.map_eq_nil_iff.mp same
    exact .nil
  | cons e es ih =>
    rw [List.map_cons, List.flatten_cons, List.map_append] at same
    obtain ⟨first, rest, rfl, one, further⟩ := List.map_eq_append_iff.mp same
    exact .cons (e.tokens_text.of_segments one) (ih further)

theorem endsLine_text (e : EntryText) : endsLine e.text = true := by
  obtain ⟨front, feed, cut, -, -, ends⟩ := e.tokens_text.closed
  simp [endsLine, cut, Token.isNewline, ends]

end EntryText

/-- A class with a `properties` block. -/
structure PropertiesText where
  name : String
  opening : Line [(.keyword, "classdef"), (.name, name)]
  propertiesOpening : Line [(.keyword, "properties")]
  entries : List EntryText
  propertiesClosing : Line [(.keyword, "end")]
  closing : Line [(.keyword, "end")]
  distinct : (entries.map fun e => e.name.text).Nodup

namespace PropertiesText

def pieces (p : PropertiesText) : List String :=
  p.opening.text :: p.propertiesOpening.text :: (p.entries.map EntryText.text ++
    [p.propertiesClosing.text, p.closing.text])

def text (p : PropertiesText) : String :=
  String.join p.pieces

/-- One property for each entry. -/
def doc (p : PropertiesText) (location : Location) (scope : String) : ClassDoc where
  name := p.name
  scope := scope
  properties := ⟨p.entries.map fun e =>
    (e.name.text, { name := e.name.text, className := p.name, scope := scope, spec := e.spec })⟩
  location := location.withLine 1

/-- A run of tokens from which the class is read. -/
def Tokens (p : PropertiesText) (ts : List Token) : Prop :=
  ∃ opening propertiesOpening entries propertiesClosing closing,
    ts = opening ++ (propertiesOpening ++ (entries ++ (propertiesClosing ++ closing))) ∧
    IsLine [(.keyword, "classdef"), (.name, p.name)] opening ∧
    IsLine [(.keyword, "properties")] propertiesOpening ∧
    EntryText.AllTokens p.entries entries ∧
    IsLine [(.keyword, "end")] propertiesClosing ∧
    IsLine [(.keyword, "end")] closing

theorem endsLine_pieces (p : PropertiesText) : ∀ piece ∈ p.pieces, endsLine piece = true := by
  simp only [pieces, List.forall_mem_cons, List.forall_mem_append, List.not_mem_nil, false_imp_iff,
    implies_true, and_true]
  refine ⟨p.opening.isLine.endsLine, p.propertiesOpening.isLine.endsLine, ?_,
    p.propertiesClosing.isLine.endsLine, p.closing.isLine.endsLine⟩
  intro piece member
  obtain ⟨e, -, rfl⟩ := List.mem_map.mp member
  exact e.endsLine_text

theorem tokens_text (p : PropertiesText) : p.Tokens (tokenize p.text) := by
  have same := map_segment_tokenize_join p.endsLine_pieces
  simp only [pieces, List.map_cons, List.map_append, List.map_nil, List.map_map, List.flatten_cons,
    List.flatten_append, List.flatten_nil, List.append_nil, Function.comp_def] at same
  obtain ⟨opening, rest, cut, first, same⟩ := List.map_eq_append_iff.mp same
  obtain ⟨propertiesOpening, rest, rfl, second, same⟩ := List.map_eq_append_iff.mp same
  obtain ⟨entries, rest, rfl, third, same⟩ := List.map_eq_append_iff.mp same
  obtain ⟨propertiesClosing, closing, rfl, fourth, last⟩ := List.map_eq_append_iff.mp same
  exact ⟨opening, propertiesOpening, entries, propertiesClosing, closing, cut,
    p.opening.isLine.of_segments (by simp) first, p.propertiesOpening.isLine.of_segments (by simp) second,
    EntryText.allTokens_of_segments p.entries third, p.propertiesClosing.isLine.of_segments (by simp) fourth,
    p.closing.isLine.of_segments (by simp) last⟩

theorem Tokens.calm {p : PropertiesText} {ts : List Token} (tokens : p.Tokens ts) : Calm {} ts {} := by
  obtain ⟨opening, propertiesOpening, entries, propertiesClosing, closing, rfl, first, second, all, third, last⟩ :=
    tokens
  exact first.calm_classdef.append ((second.calm (by simp) (.inl rfl)).append (all.calm.append
    ((third.calm (by simp) (.inl rfl)).append (last.calm (by simp) (.inl rfl)))))

theorem Tokens.kind_ne {p : PropertiesText} {ts : List Token} (tokens : p.Tokens ts) :
    ∀ t ∈ ts, t.kind ≠ .comment ∧ t.kind ≠ .nameFunction := by
  obtain ⟨opening, propertiesOpening, entries, propertiesClosing, closing, rfl, first, second, all, third, last⟩ :=
    tokens
  have line {ws : List (TokenKind × String)} {ts : List Token} (line : IsLine ws ts)
      (plain : ∀ x ∈ ws, x.1 ≠ .comment ∧ x.1 ≠ .nameFunction) :
      ∀ t ∈ ts, t.kind ≠ .comment ∧ t.kind ≠ .nameFunction :=
    line.forall_kind (p := fun kind => kind ≠ .comment ∧ kind ≠ .nameFunction) (by simp) (by simp) plain
  simp only [List.forall_mem_append]
  exact ⟨line first (by simp), line second (by simp), all.kind_ne, line third (by simp), line last (by simp)⟩

/-- The text of such a class is in normal form. -/
theorem normalize_text (p : PropertiesText) : normalize p.text = p.text := by
  have plain := p.tokens_text.kind_ne
  apply IsNormal.fixed
  refine ⟨fun t member => by simp [Token.isContinuation, (plain t member).1], ?_, p.tokens_text.calm.settled⟩
  intro before t after cut declared
  exact absurd declared (plain t (by simp [cut])).2

theorem tokenize_text (p : PropertiesText) :
    ∃ gap k rest, tokenize p.text = gap ++ k :: rest ∧ (∀ g ∈ gap, g.isWhitespace = true) ∧
      k.isKeyword "classdef" = true := by
  obtain ⟨opening, _, _, _, _, cut, first, _⟩ := p.tokens_text
  exact first.exists_keyword cut

end PropertiesText

namespace Reader

/-- Properties with names of their own are added in order. -/
theorem addProperties_distinct {es : List EntryText} {read : List Entry}
    (same : (read.map fun e => (e.name, e.spec)) = es.map fun e => (e.name.text, e.spec)) (c : ClassDoc)
    (distinct : (c.properties.keys ++ es.map fun e => e.name.text).Nodup) :
    addProperties c {} read =
      { c with properties := ⟨c.properties.entries ++ es.map fun e =>
        (e.name.text, { name := e.name.text, className := c.name, scope := c.scope, spec := e.spec })⟩ } := by
  have added (read : List Entry) (c : ClassDoc) : addProperties c {} read =
      { c with properties := read.foldl (fun t e => t.insert e.name (propertyOf c {} e)) c.properties } := by
    induction read generalizing c with
    | nil => rfl
    | cons e read ih =>
      rw [addProperties, List.foldl_cons, ← addProperties, ih]
      rfl
  have names := congrArg (List.map Prod.fst) same
  have properties := congrArg (List.map fun e : String × ValueSpec =>
    (e.1, { name := e.1, className := c.name, scope := c.scope, spec := e.2 : PropertyDoc })) same
  simp only [List.map_map, Function.comp_def] at names properties
  rw [added, Table.foldl_insert _ _ (by rwa [names])]
  rw [← properties]
  rfl

/-- A class is read from its entries. -/
theorem classDeclaration_properties {p : PropertiesText} {ts : List Token} (tokens : p.Tokens ts)
    (place : Nat → Location) (scope : String) :
    ∃ front t rest cursor, ts = front ++ t :: rest ∧ words front = [(.keyword, "classdef")] ∧
      classDeclaration place scope p.name { cursor := (Cursor.ofTokens ts).skipSpacing } =
        .ok ({ p.doc {} scope with location := place t.line }, ⟨cursor, []⟩) := by
  obtain ⟨opening, propertiesOpening, entries, propertiesClosing, closing, rfl, first, second, all, third, last⟩ :=
    tokens
  obtain ⟨front, t, rest, passed₁, cut, read, declared⟩ := classDeclaration_opening first
    (fun passed => take?_remark_of_line second (by simp) passed _) place scope
  have none : ∀ g ∈ ([] : List Token), g.isSpacing = true := by simp
  obtain ⟨passed₂, known⟩ := classBody_entries none passed₁ [] second (entries ++ (propertiesClosing ++ closing))
  obtain ⟨properties, passed₃, gap, listed, same, gaps⟩ := entries_all all third passed₂ closing []
  obtain ⟨cursor, closed⟩ := classBody_close gaps passed₃ [] last
    (addProperties { name := p.name, scope := scope, location := place t.line } {} properties)
  refine ⟨front, t, rest, cursor, cut, read, ?_⟩
  rw [List.nil_append] at known
  rw [declared, known _ listed, closed, addProperties_distinct same]
  · rfl
  · exact p.distinct

end Reader

/-- Property entries are read as they were written: a class with these entries has one property for each of
them, in order, with its size, its type, its validators and its default value, where the white space around
the value is left out and its lines end with a line feed. No property has a docstring, and nothing is
reported. -/
theorem parseUnit_propertiesText (p : PropertiesText) (location : Location) (scope : String) :
    parseUnit location p.text p.name scope = ⟨.ok (.cls (p.doc location scope)), []⟩ := by
  obtain ⟨gap, k, more, start, white, keyword⟩ := p.tokenize_text
  have header := removeHeader_of_classdef start white keyword
  obtain ⟨front, t, rest, cursor, cut, read, known⟩ :=
    Reader.classDeclaration_properties p.tokens_text (placeOf location p.text) scope
  have line : t.line = 1 := by
    rw [line_of_tokenize cut, feeds_of_classdef (fun u member => by rw [cut]; simp [member]) read]
  have place : placeOf location p.text t.line = location.withLine 1 := by
    simp [placeOf, headerLines, header, line]
  rw [place] at known
  simp only [parseUnit, classify_of_classdef start white keyword, readerOf, header, p.normalize_text, known]
  rfl

/-- An entry whose default value goes on in a second line, and holds transposes, strings and an index. -/
def EntryText.sample : EntryText where
  margin := "    ".toList
  gap := by decide +kernel
  name := ⟨"Data", by decide +kernel, by decide +kernel⟩
  ordinary := by decide +kernel
  size := some [
    ⟨[], .number ['2'] (by decide +kernel) (by decide +kernel), [], .nil, .nil⟩,
    ⟨[' '], .any, [], by decide +kernel, .nil⟩]
  sized same := List.cons_ne_nil _ _ (Option.some.inj same)
  type := some ⟨⟨"pkg", by decide +kernel, by decide +kernel⟩, ["Type"], by decide +kernel⟩
  validators := some [
    ⟨[], ⟨⟨"mustBeReal", by decide +kernel, by decide +kernel⟩, none⟩, [], .nil, .nil⟩,
    ⟨[' '], ⟨⟨"mustBeMember", by decide +kernel, by decide +kernel⟩, some [
      ⟨[], .name ⟨"Data", by decide +kernel, by decide +kernel⟩, [], .nil, .nil⟩,
      ⟨[' '], .quoted '\'' ['a', '\'', '\x7b'] (.inl rfl) (by decide +kernel), [], by decide +kernel,
        .nil⟩]⟩, [' '], by decide +kernel, by decide +kernel⟩]
  default := some ⟨"[x', y(end)';\r\n 'a, %', \x7b\x7d]' ", by decide +kernel, by decide +kernel⟩

def PropertiesText.sample : PropertiesText where
  name := "Store"
  opening := ⟨"classdef Store\n", .of_words (by decide +kernel) (by decide +kernel)⟩
  propertiesOpening := ⟨"\tproperties\n", .of_words (by decide +kernel) (by decide +kernel)⟩
  entries := [.sample, { EntryText.sample with
    name := ⟨"Q", by decide +kernel, by decide +kernel⟩
    ordinary := by decide +kernel
    size := none
    sized := (Option.some_ne_none []).symm
    type := none
    validators := none
    default := none }]
  propertiesClosing := ⟨"\tend\n", .of_words (by decide +kernel) (by decide +kernel)⟩
  closing := ⟨"end \n", .of_words (by decide +kernel) (by decide +kernel)⟩
  distinct := by decide +kernel

/-- The properties of a class whose first entry has all parts and whose second has none. -/
theorem parseUnit_propertiesText_sample :
    parseUnit {}
        ("classdef Store\n\tproperties\n    Data (2, :) pkg.Type \x7bmustBeReal, mustBeMember(Data, 'a''\x7b') \x7d" ++
        " = [x', y(end)';\r\n 'a, %', \x7b\x7d]' \n    Q\n\tend\nend \n") "Store" "s" =
      ⟨.ok (.cls
        { name := "Store"
          scope := "s"
          properties := ⟨[
            ("Data", { name := "Data", className := "Store", scope := "s"
                       spec :=
                        { size := some [.fixed 2, .any]
                          typeName := some "pkg.Type"
                          validators := some ["mustBeReal", "mustBeMember(Data, 'a''\x7b')"]
                          default := some "[x', y(end)';\n 'a, %', \x7b\x7d]'" } }),
            ("Q", { name := "Q", className := "Store", scope := "s" })]⟩
          location := { lines := some (1, 1) } }), []⟩ := by
  have text : PropertiesText.sample.text =
      "classdef Store\n\tproperties\n    Data (2, :) pkg.Type \x7bmustBeReal, mustBeMember(Data, 'a''\x7b') \x7d" ++
        " = [x', y(end)';\r\n 'a, %', \x7b\x7d]' \n    Q\n\tend\nend \n" := by
    decide +kernel
  have known := parseUnit_propertiesText .sample {} "s"
  rw [text] at known
  exact known

end MatlabOutline
