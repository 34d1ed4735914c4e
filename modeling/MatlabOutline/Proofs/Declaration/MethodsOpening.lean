import MatlabOutline.Proofs.Declaration.AttributeReading
import MatlabOutline.Proofs.Declaration.OpaqueMethods
import MatlabOutline.Proofs.Declaration.SignatureText

/-!
Lines that open a `methods` block, with attributes. Main statements: such a line is read as the lexemes that it
is made of (`MethodsOpening.lexemes_text`), it leads into the block (`MethodsOpening.Tokens.calm`), and its
attributes are read in order (`Reader.blockHeader_methods`).
-/

namespace MatlabOutline

open Lexer Scan

/-- The line of a `methods` block, whose attributes have values that they accept. -/
structure MethodsOpening where
  margin : Gap
  attributes : Option (Gap × List (Spaced (AttributeText .ofMethod)))
  accepted : ∀ list ∈ attributes, ∀ s ∈ list.2, s.item.kind.accepts s.item.value = true
  rest : LineRest

theorem Vocabulary.regular_ofMethod : Vocabulary.ofMethod.Regular :=
  regular_of_mem_all (by decide)

namespace MethodsOpening

variable (m : MethodsOpening)

/-- The attributes of the block. One that is given again is set again. -/
def attrs : Table AttrValue :=
  (m.attributes.elim [] Prod.snd).foldl (fun table s => table.insert s.item.name s.item.value) {}

def listChars : List Char :=
  m.attributes.elim [] fun list => list.1.chars ++ bracketChars '(' ')' AttributeText.chars list.2

def listLexemes : List (TokenKind × List Char) :=
  m.attributes.elim [] fun list => list.1.lexemes ++ bracketLexemes '(' ')' AttributeText.lexemes list.2

def chars : List Char :=
  m.margin.chars ++ ("methods".toList ++ (m.listChars ++ m.rest.chars))

def text : String :=
  String.ofList m.chars

def codeLexemes : List (TokenKind × List Char) :=
  m.margin.lexemes ++ (.keyword, "methods".toList) :: m.listLexemes

@[simp] theorem spelled_listLexemes : spelled m.listLexemes = m.listChars := by
  rw [listLexemes, listChars]
  cases m.attributes with
  | none => rfl
  | some list =>
    simp [spelled_append, spelled_bracketLexemes (AttributeText.isItem Vocabulary.regular_ofMethod)]

end MethodsOpening

theorem LineRest.spaces_chars (l : LineRest) :
    (spaces l.chars).rest = l.remarkChars ++ l.ending.chars := by
  have joined := l.apart
  have stop : spaces (l.remarkChars ++ l.ending.chars) = ⟨[], l.remarkChars ++ l.ending.chars⟩ ∧
      NoBreak l.gap.chars (l.remarkChars ++ l.ending.chars) := by
    rw [remarkChars]
    cases remark : l.remark with
    | none =>
      rw [remark] at joined
      exact ⟨by cases l.ending <;> rfl, by simpa using joined⟩
    | some body => exact ⟨spaces_of_solid (by decide) _, fun _ => by simp⟩
  rw [chars, spaces_gap l.gap.blank stop.2, stop.1]
  rfl

/-- A word opens a block before white space, a parenthesis or a comment, unless an `=` comes next. -/
theorem Scan.endsBlockWord_of_head {cs : List Char}
    (first : cs.head?.any (fun c => isBlank c || c == '(' || c == '%') = true)
    (free : (spaces cs).rest.head? ≠ some '=') : endsBlockWord cs = true := by
  rw [endsBlockWord, Bool.and_eq_true, Bool.not_eq_true']
  refine ⟨?_, ?_⟩
  · split
    · rfl
    · next assigned => simp [assigned] at free
    · rfl
  · rcases cs with _ | ⟨c, cs⟩
    · rfl
    · simp only [List.head?_cons, Option.any_some, Option.all_some, Bool.or_eq_true] at first ⊢
      exact .inl (.inl first)

theorem Gap.head?_any (g : Gap) {p : Char → Bool} (blank : ∀ c, isBlank c = true → p c = true) {z : List Char}
    (first : z.head?.any p = true) : (g.chars ++ z).head?.any p = true := by
  rcases chars : g.chars with _ | ⟨c, w⟩
  · exact first
  · simpa using blank c (g.blank c (by simp [chars])).1

namespace MethodsOpening

variable (m : MethodsOpening)

theorem endsBlockWord_chars : endsBlockWord (m.listChars ++ m.rest.chars) = true := by
  rw [listChars]
  cases m.attributes with
  | none =>
    rw [Option.elim_none, List.nil_append]
    apply endsBlockWord_of_head
    · refine m.rest.gap.head?_any (by simp +contextual) ?_
      rw [LineRest.remarkChars]
      cases m.rest.remark with
      | none => cases m.rest.ending <;> rfl
      | some body => rfl
    · rw [m.rest.spaces_chars, LineRest.remarkChars]
      cases m.rest.remark with
      | none => cases m.rest.ending <;> simp [LineEnding.chars]
      | some body => simp
  | some list =>
    obtain ⟨gap, items⟩ := list
    rw [Option.elim_some, List.append_assoc]
    apply endsBlockWord_of_head
    · exact gap.head?_any (by simp +contextual) rfl
    · rw [bracketChars, List.cons_append, spaces_gap gap.blank fun _ => by simp, spaces_of_solid (by decide)]
      simp [Split.prepend]

theorem breaks : Breaks (m.listChars ++ m.rest.chars) := by
  rw [listChars]
  cases m.attributes with
  | none => exact m.rest.endsSignature.breaks
  | some list =>
    rw [Option.elim_some, List.append_assoc]
    exact Breaks.gap (.cons (by decide) (by decide) _) _

theorem leads_list : Leads {} m.listLexemes {} m.rest.chars := by
  have quote := m.rest.endsSignature.breaks.2
  rw [listLexemes]
  cases m.attributes with
  | none => exact .nil {} _
  | some list =>
    obtain ⟨gap, items⟩ := list
    have listed := (Reads.nil m.rest.chars).bracket (AttributeText.isItem Vocabulary.regular_ofMethod)
      (by simpa using quote) (.inl ⟨rfl, rfl⟩) items
    rw [List.append_nil] at listed
    exact .of_reads (listed.gap gap.blank (by simp [bracketLexemes]; decide))

/-- The line is read as it is written. -/
theorem lexemes_text : Lexer.lexemes .initial m.text.toList = m.codeLexemes ++ m.rest.lexemes := by
  have behind : spelled (m.listLexemes ++ m.rest.lexemes) = m.listChars ++ m.rest.chars := by
    rw [spelled_append, m.spelled_listLexemes, m.rest.spelled_lexemes]
  have margin : Leads .initial m.margin.lexemes .initial
      (spelled ((.keyword, "methods".toList) :: (m.listLexemes ++ m.rest.lexemes)) ++ []) := by
    refine .solid m.margin rfl ?_
    rw [spelled_cons, List.append_assoc]
    exact head?_any_append_left (by decide) _
  have keyword : Leads .initial [(.keyword, "methods".toList)] {}
      (spelled (m.listLexemes ++ m.rest.lexemes) ++ []) := by
    rw [List.append_nil, behind]
    have kind : wordKind .initial "methods" (m.listChars ++ m.rest.chars) = .keyword := by
      rw [wordKind, if_neg (by decide), m.endsBlockWord_chars]
      rfl
    exact .settle {} (.keyword rfl rfl (by decide) (by decide) kind m.breaks.1) m.breaks.2
  have list : Leads {} m.listLexemes {} (spelled m.rest.lexemes ++ []) := by
    rw [List.append_nil, m.rest.spelled_lexemes]
    exact m.leads_list
  have line := Leads.append margin (.append keyword (.append list (m.rest.leads rfl (.inl rfl) [])))
  rw [Leads, Lexer.lexemes, List.append_nil, List.append_nil] at line
  rw [text, String.toList_ofList, codeLexemes, List.append_assoc, List.cons_append, ← line]
  simp [chars, spelled_append, m.rest.spelled_lexemes]

end MethodsOpening

/-- Lexemes that open no block and close each bracket that they open. -/
def Lexer.Neutral (xs : List (TokenKind × List Char)) : Prop :=
  ∀ n : Nesting, (wordsOf xs).foldl Nesting.read n = n

namespace Lexer.Neutral

variable {xs ys : List (TokenKind × List Char)}

theorem nil : Neutral [] :=
  fun _ => rfl

theorem append (first : Neutral xs) (second : Neutral ys) : Neutral (xs ++ ys) := by
  intro n
  rw [wordsOf_append, List.foldl_append, first, second]

theorem cons {x : TokenKind × List Char} (word : ∀ n : Nesting, n.read (x.1, String.ofList x.2) = n)
    (rest : Neutral xs) : Neutral (x :: xs) := by
  intro n
  by_cases blank : x.1 = .whitespace
  · rw [wordsOf, visible_space blank]
    exact rest n
  · rw [wordsOf_cons blank, List.foldl_cons, word, rest]

/-- A lexeme that is neither a keyword nor a mark. -/
theorem word {kind : TokenKind} (other : kind ≠ .keyword ∧ kind ≠ .punctuation) (cs : List Char) (rest : Neutral xs) :
    Neutral ((kind, cs) :: xs) := by
  refine .cons (fun n => ?_) rest
  simp [Nesting.read, Nesting.step, other, Token.isOpenBracket, Token.isCloseBracket, Token.isPunct, Token.is]

theorem mark {c : Char} (other : c = ',' ∨ c = '.') (rest : Neutral xs) : Neutral ((.punctuation, [c]) :: xs) := by
  refine .cons (fun n => ?_) rest
  rcases other with rfl | rfl <;> rfl

theorem gap (w : List Char) : Neutral (gapLexemes w) := by
  rw [gapLexemes]
  split
  · exact .nil
  · exact .word (by simp) _ .nil

section Lists

variable {α : Type} {lexemes : α → List (TokenKind × List Char)} (item : ∀ a, Neutral (lexemes a))
include item

theorem list (items : List (Spaced α)) : Neutral (listLexemes lexemes items) := by
  have spaced (s : Spaced α) : Neutral (s.lexemes lexemes) :=
    (gap s.before).append ((item s.item).append (gap s.after))
  rcases items with _ | ⟨s, items⟩
  · exact .nil
  induction items generalizing s with
  | nil =>
    rw [listLexemes_singleton]
    exact spaced s
  | cons t items ih =>
    rw [listLexemes_cons_cons]
    exact (spaced s).append (.mark (.inl rfl) (ih t))

theorem bracket {opening closing : Char} (marks : opening = '(' ∧ closing = ')' ∨ opening = '\x7b' ∧ closing = '\x7d')
    (items : List (Spaced α)) : Neutral (bracketLexemes opening closing lexemes items) := by
  intro n
  have opens : n.read (.punctuation, String.ofList [opening]) = { n with brackets := n.brackets + 1 } := by
    rcases marks with ⟨rfl, rfl⟩ | ⟨rfl, rfl⟩ <;> rfl
  have closes : Nesting.read { n with brackets := n.brackets + 1 } (.punctuation, String.ofList [closing]) = n := by
    rcases marks with ⟨rfl, rfl⟩ | ⟨rfl, rfl⟩ <;> rfl
  rw [bracketLexemes, wordsOf_cons (by simp), wordsOf_append, List.foldl_cons, List.foldl_append, opens,
    list item items, wordsOf_cons (by simp)]
  exact closes

end Lists

end Lexer.Neutral

theorem TypeText.neutral (t : TypeText) : Neutral t.lexemes := by
  refine .word (by simp) _ ?_
  induction t.fields with
  | nil => exact .nil
  | cons f fields ih => exact .mark (.inr rfl) (.word (by simp) _ ih)

theorem NameText.neutral (n : NameText) : Neutral n.lexemes := by
  rw [lexemes]
  split
  · exact .word (by simp) _ n.name.neutral
  · exact n.name.neutral

theorem AttributeText.neutral {v : Vocabulary} (a : AttributeText v) : Neutral a.lexemes := by
  have setting : Neutral (partLexemes AttrValueText.assigned a.setting) := by
    cases a.setting with
    | none => exact .nil
    | some value =>
      refine .word (by simp) _ (.word (by simp) _ (.word (by simp) _ ?_))
      cases value with
      | bool b => exact .word (by simp) _ .nil
      | string s within => exact .word (by simp) _ .nil
      | list items => exact .bracket NameText.neutral (.inr ⟨rfl, rfl⟩) _
      | name n other => exact n.neutral
  rw [lexemes]
  cases a.sign with
  | none => exact .word (by simp) _ setting
  | some c => exact .word (by simp) _ (.word (by simp) _ setting)

namespace MethodsOpening

variable (m : MethodsOpening)

/-- A run of tokens from which the attributes of the block are read. -/
def Tokens (ts : List Token) : Prop :=
  ∃ margin k list gap remark e line, ts = margin ++ k :: (list ++ (gap ++ (Option.toList remark ++ [e]))) ∧
    words margin = [] ∧ k.segment = (.keyword, "methods") ∧ list.map Token.lexeme = m.listLexemes ∧
    (∀ t ∈ list, t.line = line) ∧ words gap = [] ∧ (∀ t ∈ remark, t.isRemark = true) ∧ e.kind = .newline

theorem neutral_list : Neutral m.listLexemes := by
  rw [listLexemes]
  cases m.attributes with
  | none => exact .nil
  | some list => exact (Neutral.gap list.1.chars).append (.bracket AttributeText.neutral (.inl ⟨rfl, rfl⟩) list.2)

theorem inline_list : ∀ x ∈ m.listLexemes, x.1.isInline = true := by
  rw [listLexemes]
  cases m.attributes with
  | none => simp
  | some list =>
    rw [Option.elim_some, List.forall_mem_append]
    exact ⟨inline_gap _, inline_bracket AttributeText.inline _ _ _⟩

variable {m} {ts : List Token}

/-- The line opens the block, whatever its attributes. -/
theorem Tokens.calm (tokens : m.Tokens ts) : Calm { blocks := ["classdef"] } ts .methods := by
  obtain ⟨margin, k, list, gap, remark, e, line, rfl, white, keyword, read, -, blank, own, ends⟩ := tokens
  have solid : k.isWhitespace = false := by
    rw [Token.isWhitespace, show k.kind = .keyword from congrArg Prod.fst keyword]
    rfl
  have front : words (margin ++ k :: (list ++ gap)) = (.keyword, "methods") :: wordsOf m.listLexemes := by
    rw [words_append, white, words_cons solid, keyword, words_append, blank, words_of_lexemes read, List.append_nil]
    rfl
  have within : ∀ x ∈ words (margin ++ k :: (list ++ gap)), x.1 ≠ .newline := by
    rw [front, List.forall_mem_cons]
    refine ⟨by simp, fun x member => ?_⟩
    obtain ⟨y, inside, rfl⟩ := List.mem_map.mp member
    exact (TokenKind.ne_of_isInline (m.inline_list y (List.mem_of_mem_filter inside))).1
  have calm := Calm.remarked own ends within (n := { blocks := ["classdef"] })
    (.inl rfl)
  have entered : Nesting.read { blocks := ["classdef"] } (.keyword, "methods") = .methods := rfl
  rw [front, List.foldl_cons, m.neutral_list, entered] at calm
  simpa using calm

theorem tokens_of_cut {source : String} {before back : List Token} (cut : tokenize source = before ++ (ts ++ back))
    (same : ts.map Token.segment = (tokenize m.text).map Token.segment) : m.Tokens ts := by
  have read := Token.map_lexeme_of_segments same
  rw [Token.map_lexeme_tokenize, m.lexemes_text, codeLexemes, List.append_assoc, List.cons_append] at read
  obtain ⟨margin, more, rfl, white, read⟩ := List.map_eq_append_iff.mp read
  obtain ⟨k, more, rfl, kind, text, read⟩ := Token.eq_cons_of_lexemes read
  obtain ⟨list, more, rfl, listed, read⟩ := List.map_eq_append_iff.mp read
  obtain ⟨gap, remark, e, rfl, blank, -, own, ends⟩ := m.rest.split_lexemes (read.trans (List.nil_append _).symm)
  have plain : ∀ t ∈ list, t.isNewline = false ∧ t.isRemark = false := by
    intro t member
    have inside : t.lexeme ∈ m.listLexemes := listed ▸ List.mem_map_of_mem member
    have kind : t.kind ≠ .newline ∧ t.kind ≠ .comment ∧ _ := TokenKind.ne_of_isInline (m.inline_list _ inside)
    simp [Token.isNewline, Token.isRemark, kind]
  have placed : tokenize source = (before ++ margin ++ [k]) ++ (list ++ (gap ++ (remark.toList ++ [e]) ++ back)) := by
    simpa using cut
  have level := line_of_inline placed plain
  refine ⟨margin, k, list, gap, remark, e, _, rfl, ?_, Prod.ext kind text, listed, level, blank, own, ends⟩
  rw [words_of_lexemes white, m.margin.wordsOf_lexemes]

theorem forall_of_lexemes (read : ts.map Token.lexeme = m.codeLexemes ++ m.rest.lexemes) :
    ∀ t ∈ ts, t.isContinuation = false ∧ t.kind ≠ .nameFunction := by
  have inline {xs : List (TokenKind × List Char)} (all : ∀ x ∈ xs, x.1.isInline = true) :
      ∀ x ∈ xs, x.1 ≠ .comment ∧ x.1 ≠ .nameFunction := fun x member =>
    have kind := TokenKind.ne_of_isInline (all x member)
    ⟨kind.2.1, kind.2.2.2⟩
  refine m.rest.forall_of_lexemes read ?_
  rw [codeLexemes, List.forall_mem_append, List.forall_mem_cons]
  exact ⟨inline (inline_gap _), by simp, inline m.inline_list⟩

theorem endsLine_text : endsLine m.text = true := by
  have read := Token.map_lexeme_tokenize m.text
  rw [m.lexemes_text] at read
  obtain ⟨front, remark, e, cut, -, -, -, ends⟩ := m.rest.split_lexemes read
  simp [endsLine, cut, Token.isNewline, ends]

end MethodsOpening

namespace Reader

/-- The attributes that a line lists are read in order if they accept their values, and the comment behind them
says nothing. -/
theorem blockHeader_list {v : Vocabulary} (regular : v.Regular) {items : List (Spaced (AttributeText v))}
    (accepted : ∀ s ∈ items, s.item.kind.accepts s.item.value = true) {space : Gap} {k e : Token}
    {list gap : List Token} {remark : Option Token} {line : Nat}
    (read : list.map Token.lexeme = space.lexemes ++ bracketLexemes '(' ')' AttributeText.lexemes items)
    (level : ∀ t ∈ list, t.line = line) (blank : words gap = []) (own : ∀ t ∈ remark, t.isRemark = true)
    (ends : e.kind = .newline) (passed tail : List Token) (notes : List Note) :
    ∃ passed', blockHeader v ⟨⟨passed, k :: (list ++ (gap ++ (remark.toList ++ e :: tail)))⟩, notes⟩ =
      .ok (items.foldl (fun table s => table.insert s.item.name s.item.value) {}, ⟨⟨passed', tail⟩, notes⟩) := by
  obtain ⟨before, more, rfl, white, read⟩ := List.map_eq_append_iff.mp read
  obtain ⟨o, more, rfl, kind, mark, read⟩ := Token.eq_cons_of_lexemes read
  obtain ⟨inner, last, rfl, listed, read⟩ := List.map_eq_append_iff.mp read
  obtain ⟨close, last, rfl, kind', mark', read⟩ := Token.eq_cons_of_lexemes read
  obtain rfl := List.map_eq_nil_iff.mp read
  have warned : (items.filterMap fun s => s.item.warning line) = [] := by
    rw [List.filterMap_eq_nil_iff]
    intro s member
    rw [AttributeText.warning, if_pos (accepted s member)]
  have filled : attributesFrom v {} ⟨⟨o :: (before.reverse ++ k :: passed),
      inner ++ close :: (gap ++ (remark.toList ++ e :: tail))⟩, notes⟩ = _ :=
    attributesFrom_list regular (fun u member => level u (by simp [member])) (o :: (before.reverse ++ k :: passed))
      notes listed (Prod.ext kind' mark') {}
  rw [warned, List.reverse_nil, List.nil_append] at filled
  have start := Cursor.skipWhitespace_split (Token.white_of_lexemes white) (t := o)
    (by simp [Token.isWhitespace, kind]) (by simp [kind]) (k :: passed)
    (inner ++ close :: (gap ++ (remark.toList ++ e :: tail)))
  have opens : o.isPunct "(" = true := by simp [Token.isPunct, Token.is, kind, mark]
  have finished := Cursor.finishLine_remark blank own ends
    (close :: (inner.reverse ++ o :: (before.reverse ++ k :: passed))) tail
  refine ⟨e :: ((gap ++ remark.toList).reverse ++ close :: (inner.reverse ++ o :: (before.reverse ++ k :: passed))),
    ?_⟩
  simp only [blockHeader, move, Cursor.advance, List.append_assoc, List.cons_append, List.nil_append, start,
    attributes, Cursor.take?, opens, if_true, withCursor, filled, finished]

/-- The attributes of a block of methods are read from its line. -/
theorem blockHeader_methods {m : MethodsOpening} {k e : Token} {list gap : List Token} {remark : Option Token}
    {line : Nat} (read : list.map Token.lexeme = m.listLexemes) (level : ∀ t ∈ list, t.line = line)
    (blank : words gap = []) (own : ∀ t ∈ remark, t.isRemark = true) (ends : e.kind = .newline)
    (passed tail : List Token) (notes : List Note) :
    ∃ passed', blockHeader .ofMethod ⟨⟨passed, k :: (list ++ (gap ++ (remark.toList ++ e :: tail)))⟩, notes⟩ =
      .ok (m.attrs, ⟨⟨passed', tail⟩, notes⟩) := by
  rw [MethodsOpening.listLexemes] at read
  rw [MethodsOpening.attrs]
  cases given : m.attributes with
  | none =>
    rw [given] at read
    obtain rfl := List.map_eq_nil_iff.mp read
    exact blockHeader_bare blank own ends .ofMethod k passed tail notes
  | some list =>
    rw [given] at read
    exact blockHeader_list Vocabulary.regular_ofMethod (m.accepted list given) read level blank own ends passed tail
      notes

end Reader

end MatlabOutline
