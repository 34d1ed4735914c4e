import MatlabOutline.Proofs.Declaration.ClassNesting
import MatlabOutline.Proofs.Declaration.EntryParts
import MatlabOutline.Proofs.LineEndings.Rendition
import MatlabOutline.Proofs.Lexing.Signatures

/-!
The ends of lines as they are written: white space, a comment and a line end behind the code of a line, or
alone in it. Main statements: they are read as the lexemes that they are made of (`LineRest.leads`), also where
they are a line of their own (`QuietLine.lexemes_text`).
-/

namespace MatlabOutline

open Lexer Scan

theorem Scan.lineBody_line {body : List Char} (within : '\n' ∉ body) {r : List Char} (ended : atLineEnd r = true)
    (apart : NoBreak body r) : lineBody (body ++ r) = ⟨body, r⟩ := by
  induction body with
  | nil =>
    rcases r with _ | ⟨c, r⟩
    · rfl
    · rw [List.nil_append, lineBody_cons, if_pos ended]
  | cons c body ih =>
    rw [List.mem_cons, not_or] at within
    have going : atLineEnd (c :: (body ++ r)) = false := by
      rw [← Bool.not_eq_true, atLineEnd_cons_iff, not_or]
      refine ⟨fun feed => within.1 feed.symm, ?_⟩
      rintro ⟨rfl, s, next⟩
      rcases body with _ | ⟨d, body⟩
      · exact apart rfl (by rw [← List.nil_append r, next]; rfl)
      · obtain ⟨rfl, -⟩ := List.cons.inj next
        exact within.2 (by simp)
    rw [List.cons_append, lineBody_cons, going, ih within.2 apart.tail]
    rfl

instance (w y : List Char) : Decidable (NoBreak w y) :=
  inferInstanceAs (Decidable (w.getLast? = some '\r' → y.head? ≠ some '\n'))

/-- White space within a line. -/
structure Gap where
  chars : List Char
  blank : IsGap chars

def Gap.empty : Gap :=
  ⟨[], .nil⟩

def Gap.space : Gap :=
  ⟨[' '], .space⟩

@[simp] theorem Gap.chars_empty : empty.chars = [] :=
  rfl

@[simp] theorem Gap.chars_space : space.chars = [' '] :=
  rfl

def Gap.lexemes (g : Gap) : List (TokenKind × List Char) :=
  gapLexemes g.chars

@[simp] theorem Gap.spelled_lexemes (g : Gap) : spelled g.lexemes = g.chars :=
  spelled_gapLexemes g.chars

/-- What stands behind the code of a line. -/
structure LineRest where
  gap : Gap
  /-- The comment behind its `%`. -/
  remark : Option (List Char)
  within : ∀ body ∈ remark, '\n' ∉ body
  ending : LineEnding
  /-- A carriage return right before a line feed is a part of the line end. -/
  apart : NoBreak (gap.chars ++ remark.elim [] ('%' :: ·)) ending.chars

namespace LineRest

/-- Nothing but a line end. -/
def bare (ending : LineEnding) : LineRest where
  gap := .empty
  remark := none
  within := by simp
  ending := ending
  apart := by simp [NoBreak]

variable (l : LineRest)

def remarkChars : List Char :=
  l.remark.elim [] ('%' :: ·)

def chars : List Char :=
  l.gap.chars ++ (l.remarkChars ++ l.ending.chars)

def remarkLexemes : List (TokenKind × List Char) :=
  l.remark.toList.map fun body => (.comment, '%' :: body)

def lexemes : List (TokenKind × List Char) :=
  l.gap.lexemes ++ (l.remarkLexemes ++ [(.newline, l.ending.chars)])

/-- The text of the comment. -/
def comment : Option String :=
  l.remark.map fun body => String.ofList ('%' :: body)

theorem spelled_remarkLexemes : spelled l.remarkLexemes = l.remarkChars := by
  cases remark : l.remark <;> simp [remarkLexemes, remarkChars, remark]

theorem spelled_lexemes : spelled l.lexemes = l.chars := by
  simp [lexemes, chars, spelled_append, l.spelled_remarkLexemes]

end LineRest

namespace Lexer

variable {st : LexState} {r : List Char}

theorem Leads.newline (ending : LineEnding) : Leads st [(.newline, ending.chars)] .initial r := by
  cases ending <;> exact Leads.of_step rfl

/-- White space before something else. -/
theorem Leads.space (g : Gap) (blank : st.blank = st) (apart : NoBreak g.chars r) (stop : spaces r = ⟨[], r⟩) :
    Leads st g.lexemes st r := by
  by_cases empty : g.chars = []
  · rw [Gap.lexemes, gapLexemes, if_pos empty]
    exact .nil st r
  · rw [Gap.lexemes, gapLexemes, if_neg empty]
    exact .gap g.blank empty apart stop blank

theorem Leads.solid (g : Gap) (blank : st.blank = st) (solid : r.head?.any (!isBlank ·) = true) :
    Leads st g.lexemes st r := by
  obtain ⟨c, r, rfl⟩ : ∃ c z, r = c :: z := by
    rcases r with _ | ⟨c, z⟩
    · simp at solid
    · exact ⟨c, z, rfl⟩
  have stop : isBlank c = false := by simpa using solid
  refine .space g blank ?_ (spaces_of_solid stop r)
  rintro - head
  obtain rfl : c = '\n' := by simpa using head
  exact absurd stop (by decide)

theorem Leads.remark {body : List Char} (within : '\n' ∉ body)
    (line : st.lineStart = false ∨ body.head? ≠ some '\x7b') (ended : atLineEnd r = true)
    (apart : NoBreak ('%' :: body) r) : Leads st [(.comment, '%' :: body)] st.plain r := by
  have cut := lineBody_line within ended apart.tail
  apply Leads.of_step
  rw [step_remark, comment]
  have plain : (st.lineStart && opensBlockComment (body ++ r)) = false := by
    rcases line with inside | other
    · rw [inside, Bool.false_and]
    · rw [opensBlockComment_eq, cut, beq_false_of_ne other, Bool.false_and, Bool.and_false]
  rw [plain, cut]
  rfl

end Lexer

/-- A word that is a keyword here, other than that of a signature. -/
theorem Lexer.Leads.keyword {st : LexState} (fresh : st.signature = .none) (field : st.afterDot = false)
    {w r : List Char} (word : isIdentifierChars w = true) (other : String.ofList w ≠ "function")
    (kind : wordKind st (String.ofList w) r = .keyword) (stop : r.head?.any isIdentRest = false) :
    Leads st [(.keyword, w)] st.operand r := by
  rcases w with _ | ⟨c, cs⟩
  · simp [isIdentifierChars] at word
  rw [isIdentifierChars, Bool.and_eq_true] at word
  have none : signatureAfter (String.ofList (c :: cs)) r = .none := by
    rw [signatureAfter, if_neg (by simpa using other)]
  apply Leads.of_step
  rw [step_of_letter word.1, word_plain field fresh, run_of_head word.2 stop]
  simp only [kind, none]
  rw [LexState.operand, fresh]

theorem LineEnding.atLineEnd_chars (e : LineEnding) (t : List Char) : atLineEnd (e.chars ++ t) = true := by
  cases e <;> rfl

/-- The rest of a line is read as it is written. A comment over lines could begin only where a line does. -/
theorem LineRest.leads (l : LineRest) {st : LexState} (blank : st.blank = st)
    (line : st.lineStart = false ∨ ∀ body ∈ l.remark, body.head? ≠ some '\x7b') (t : List Char) :
    Leads st l.lexemes .initial t := by
  have ended := l.ending.atLineEnd_chars t
  have apart (w : List Char) (apart : NoBreak w l.ending.chars) : NoBreak w (l.ending.chars ++ t) := by
    intro last
    have away := apart last
    cases e : l.ending <;> simp_all [LineEnding.chars]
  have joined := l.apart
  cases remark : l.remark with
  | none =>
    rw [remark] at joined
    have stop : spaces (l.ending.chars ++ t) = ⟨[], l.ending.chars ++ t⟩ := by
      cases l.ending <;> rfl
    have gap : Leads st l.gap.lexemes st (spelled [(.newline, l.ending.chars)] ++ t) := by
      refine .space l.gap blank ?_ ?_
      · simpa using apart _ (by simpa using joined)
      · simpa using stop
    simpa [LineRest.lexemes, LineRest.remarkLexemes, remark] using gap.append (.newline l.ending)
  | some body =>
    rw [remark] at joined
    have within := l.within body remark
    have own : NoBreak ('%' :: body) l.ending.chars := by
      intro last
      exact joined (by rw [List.getLast?_append, Option.elim_some, last]; rfl)
    have comment : Leads st [(.comment, '%' :: body)] st.plain (l.ending.chars ++ t) :=
      .remark within (line.imp_right fun other => other body remark) ended (apart _ own)
    have newline : Leads st.plain [(.newline, l.ending.chars)] .initial t := .newline l.ending
    have both : Leads st ([(.comment, '%' :: body)] ++ [(.newline, l.ending.chars)]) .initial t :=
      .append (by simpa using comment) newline
    have gap : Leads st l.gap.lexemes st
        (spelled ([(.comment, '%' :: body)] ++ [(.newline, l.ending.chars)]) ++ t) :=
      .solid l.gap blank (by simp; decide)
    simpa [LineRest.lexemes, LineRest.remarkLexemes, remark] using gap.append both

/-- A line that holds at most a comment, which does not begin with an opening brace. -/
structure QuietLine extends LineRest where
  plain : ∀ body ∈ remark, body.head? ≠ some '\x7b'

/-- The kinds and texts of the lexemes that are not white space. -/
def wordsOf (xs : List (TokenKind × List Char)) : List (TokenKind × String) :=
  (visible xs).map fun x => (x.1, String.ofList x.2)

theorem wordsOf_append (xs ys : List (TokenKind × List Char)) : wordsOf (xs ++ ys) = wordsOf xs ++ wordsOf ys := by
  simp [wordsOf, visible]

theorem wordsOf_cons {x : TokenKind × List Char} (solid : x.1 ≠ .whitespace) (xs : List (TokenKind × List Char)) :
    wordsOf (x :: xs) = (x.1, String.ofList x.2) :: wordsOf xs := by
  rw [wordsOf, visible_solid solid]
  rfl

@[simp] theorem Gap.wordsOf_lexemes (g : Gap) : wordsOf g.lexemes = [] := by
  rw [Gap.lexemes, gapLexemes]
  split <;> simp [wordsOf, visible]

theorem words_of_lexemes {ts : List Token} {xs : List (TokenKind × List Char)} (read : ts.map Token.lexeme = xs) :
    words ts = wordsOf xs := by
  induction ts generalizing xs with
  | nil =>
    obtain rfl := read
    rfl
  | cons t ts ih =>
    obtain rfl := read
    have further := ih rfl
    by_cases blank : t.kind = .whitespace
    · rw [words_cons_of_blank (by simp [Token.isWhitespace, blank]), further, List.map_cons, wordsOf, wordsOf,
        visible_space blank]
    · rw [words_cons (by simpa [Token.isWhitespace] using blank), further, List.map_cons, wordsOf_cons blank,
        Token.lexeme, String.ofList_toList]
      rfl

theorem Token.isRemark_of_text {t : Token} (kind : t.kind = .comment) {body : List Char}
    (text : t.text = String.ofList ('%' :: body)) : t.isRemark = true := by
  simp [isRemark, isContinuation, kind, text]
  rfl

/-- The tokens of a line: those of its code and the white space behind it, its comment and its line end. -/
theorem LineRest.split_lexemes (l : LineRest) {ts : List Token} {xs : List (TokenKind × List Char)}
    (read : ts.map Token.lexeme = xs ++ l.lexemes) :
    ∃ front remark e, ts = front ++ (Option.toList remark ++ [e]) ∧
      words front = wordsOf xs ∧ remark.map Token.text = l.comment ∧ (∀ t ∈ remark, t.isRemark = true) ∧
      e.kind = .newline := by
  rw [lexemes, ← List.append_assoc] at read
  obtain ⟨front, last, rfl, first, read⟩ := List.map_eq_append_iff.mp read
  have code : words front = wordsOf xs := by
    rw [words_of_lexemes first, wordsOf_append, l.gap.wordsOf_lexemes, List.append_nil]
  rw [remarkLexemes] at read
  rw [comment]
  cases remark : l.remark with
  | none =>
    rw [remark] at read
    obtain ⟨e, r, rfl, ends, -, nothing⟩ := Token.eq_cons_of_lexemes read
    obtain rfl := List.map_eq_nil_iff.mp nothing
    exact ⟨front, none, e, rfl, code, rfl, by simp, ends⟩
  | some body =>
    rw [remark] at read
    obtain ⟨t, r, rfl, kind, text, read⟩ := Token.eq_cons_of_lexemes read
    obtain ⟨e, r, rfl, ends, -, nothing⟩ := Token.eq_cons_of_lexemes read
    obtain rfl := List.map_eq_nil_iff.mp nothing
    refine ⟨front, some t, e, rfl, code, congrArg some text, ?_, ends⟩
    intro u same
    obtain rfl := Option.some.inj same
    exact Token.isRemark_of_text kind text

/-- A line is cut off behind its line end. -/
theorem LineRest.tokenLines_of_lexemes (l : LineRest) {ts : List Token} {xs : List (TokenKind × List Char)}
    (read : ts.map Token.lexeme = xs ++ l.lexemes) (within : ∀ x ∈ xs, x.1 ≠ .newline) :
    tokenLines ts = [ts] ∧ ts.getLast?.all Token.isNewline = true := by
  have shape : xs ++ l.lexemes = (xs ++ (l.gap.lexemes ++ l.remarkLexemes)) ++ [(.newline, l.ending.chars)] := by
    simp [lexemes]
  rw [shape] at read
  obtain ⟨front, last, rfl, first, read⟩ := List.map_eq_append_iff.mp read
  obtain ⟨e, r, rfl, ends, -, nothing⟩ := Token.eq_cons_of_lexemes read
  obtain rfl := List.map_eq_nil_iff.mp nothing
  have newline : e.isNewline = true := by simp [Token.isNewline, ends]
  have gap : ∀ x ∈ l.gap.lexemes, x.1 ≠ .newline := by
    rw [Gap.lexemes, gapLexemes]
    split <;> simp
  have remark : ∀ x ∈ l.remarkLexemes, x.1 ≠ .newline := by simp [remarkLexemes]
  have inside : ∀ t ∈ front, t.isNewline = false := by
    intro t member
    have kind : t.lexeme.1 ≠ .newline := by
      have member := first ▸ List.mem_map_of_mem (f := Token.lexeme) member
      rw [List.mem_append, List.mem_append] at member
      exact member.elim (within _) fun member => member.elim (gap _) (remark _)
    exact beq_false_of_ne kind
  exact ⟨tokenLines_line inside newline, by simp [newline]⟩

/-- What stands behind the code of a line neither goes on in the next line nor declares a function. -/
theorem LineRest.forall_of_lexemes (l : LineRest) {ts : List Token} {xs : List (TokenKind × List Char)}
    (read : ts.map Token.lexeme = xs ++ l.lexemes) (code : ∀ x ∈ xs, x.1 ≠ .comment ∧ x.1 ≠ .nameFunction) :
    ∀ t ∈ ts, t.isContinuation = false ∧ t.kind ≠ .nameFunction := by
  intro t member
  have plain (inside : t.lexeme.1 ≠ .comment ∧ t.lexeme.1 ≠ .nameFunction) :
      t.isContinuation = false ∧ t.kind ≠ .nameFunction :=
    ⟨by simp [Token.isContinuation, show t.kind ≠ .comment from inside.1], inside.2⟩
  have member := read ▸ List.mem_map_of_mem (f := Token.lexeme) member
  rw [lexemes, List.mem_append, List.mem_append, List.mem_append] at member
  rcases member with member | member | member | member
  · exact plain (code _ member)
  · refine plain ?_
    rw [Gap.lexemes, gapLexemes] at member
    split at member <;> simp_all
  · obtain ⟨body, -, same⟩ := List.mem_map.mp member
    obtain ⟨kind, text⟩ := Token.of_lexeme same.symm
    have remark := Token.isRemark_of_text kind text
    simp only [Token.isRemark, Bool.and_eq_true, Bool.not_eq_true'] at remark
    exact ⟨remark.2, by simp [kind]⟩
  · refine plain ?_
    simp_all

theorem Token.kind_of_isRemark {t : Token} (remark : t.isRemark = true) : t.kind = .comment := by
  rw [isRemark, Bool.and_eq_true, beq_iff_eq] at remark
  exact remark.1

theorem words_of_isRemark {t : Token} (remark : t.isRemark = true) : words [t] = [(.comment, t.text)] := by
  have kind := Token.kind_of_isRemark remark
  rw [words_cons (by simp [Token.isWhitespace, kind]), Token.segment, kind, words_nil]

theorem Nesting.read_comment (n : Nesting) (text : String) : n.read (.comment, text) = n := by
  simp [read, step, Token.isOpenBracket, Token.isCloseBracket, Token.isPunct, Token.is]

/-- A comment at the end of a line does not matter to the nesting. -/
theorem Calm.remarked {front : List Token} {remark : Option Token} (own : ∀ t ∈ remark, t.isRemark = true) {e : Token}
    (ends : e.kind = .newline) (within : ∀ x ∈ words front, x.1 ≠ .newline) {n : Nesting}
    (code : n.inMethods = false ∨ (words front).head?.any (·.1 == .keyword) = true) :
    Calm n (front ++ (remark.toList ++ [e])) ((words front).foldl Nesting.read n) := by
  cases remark with
  | none => exact IsLine.calm ⟨front, e, rfl, rfl, ends⟩ within code
  | some t =>
    have read := words_of_isRemark (own t rfl)
    have line : IsLine (words front ++ [(.comment, t.text)]) (front ++ [t] ++ [e]) :=
      ⟨front ++ [t], e, rfl, by rw [words_append, read], ends⟩
    have calm := line.calm (n := n) (by
      rw [List.forall_mem_append, List.forall_mem_singleton]
      exact ⟨within, by simp⟩) (code.imp_right fun first => by
        rcases cut : words front with _ | ⟨x, xs⟩
        · simp [cut] at first
        · simpa [cut] using first)
    rw [List.foldl_append, List.foldl_cons, Nesting.read_comment] at calm
    simpa using calm

namespace QuietLine

variable (l : QuietLine)

def text : String :=
  String.ofList l.chars

theorem lexemes_text : Lexer.lexemes .initial l.text.toList = l.lexemes := by
  have leads : Leads .initial l.lexemes .initial [] := l.toLineRest.leads rfl (.inr l.plain) []
  rwa [Leads, List.append_nil, l.spelled_lexemes, Lexer.lexemes, List.append_nil, ← String.toList_ofList (l := l.chars)]
    at leads

theorem tokens_text :
    ∃ gap remark e, tokenize l.text = gap ++ (Option.toList remark ++ [e]) ∧ words gap = [] ∧
      remark.map Token.text = l.comment ∧ (∀ t ∈ remark, t.isRemark = true) ∧ e.kind = .newline := by
  exact l.split_lexemes (by rw [Token.map_lexeme_tokenize, l.lexemes_text, List.nil_append])

theorem endsLine_text : endsLine l.text = true := by
  obtain ⟨gap, remark, e, tokens, -, -, -, ends⟩ := l.tokens_text
  simp [endsLine, tokens, Token.isNewline, ends]

theorem isHeader_text : ∀ t ∈ tokenize l.text, t.isHeader = true := by
  obtain ⟨gap, remark, e, tokens, blank, -, own, ends⟩ := l.tokens_text
  simp only [tokens, List.forall_mem_append, List.forall_mem_singleton]
  refine ⟨fun t member => Token.isHeader_of_isWhitespace (blank_of_words blank t member), fun t member => ?_,
    by simp [Token.isHeader, Token.isSpacing, Token.isNewline, ends]⟩
  have comment := own t (by simpa using member)
  rw [Token.isRemark, Bool.and_eq_true] at comment
  simp [Token.isHeader, comment.1]

end QuietLine

end MatlabOutline
