import MatlabOutline.Proofs.Declaration.EntryText
import MatlabOutline.Proofs.Declaration.OpaqueMethods
import MatlabOutline.Proofs.LineEndings.Phrases

/-!
Reading the parts of an entry: the dimensions of a size (`givesSize_list`), the fields of a type
(`dottedFrom_fields`), the texts of validators (`validators_list`) and a default value
(`defaultFrom_closed`) are read from their tokens as they were written.
-/

namespace MatlabOutline

open Lexer

namespace Token

theorem of_lexeme {t : Token} {kind : TokenKind} {cs : List Char} (read : t.lexeme = (kind, cs)) :
    t.kind = kind ∧ t.text = String.ofList cs := by
  obtain ⟨rfl, rfl⟩ := Prod.mk.inj read
  exact ⟨rfl, (String.ofList_toList).symm⟩

/-- The lexemes of tokens do not depend on their lines. -/
theorem map_lexeme_of_segments {ts us : List Token} (same : us.map segment = ts.map segment) :
    us.map lexeme = ts.map lexeme := by
  have lexeme (ts : List Token) : ts.map lexeme = (ts.map segment).map fun x => (x.1, x.2.toList) := by
    simp [Token.lexeme, segment, Function.comp_def]
  rw [lexeme, lexeme, same]

theorem concat_of_lexemes {ts : List Token} {xs : List (TokenKind × List Char)}
    (read : ts.map lexeme = xs) : concat ts = String.ofList (spelled xs) := by
  rw [← read, spelled_lexemes, String.ofList_toList]

theorem eq_cons_of_lexemes {ts : List Token} {kind : TokenKind} {cs : List Char}
    {xs : List (TokenKind × List Char)} (read : ts.map lexeme = (kind, cs) :: xs) :
    ∃ t r, ts = t :: r ∧ t.kind = kind ∧ t.text = String.ofList cs ∧ r.map lexeme = xs := by
  obtain ⟨t, r, rfl, first, rest⟩ := List.map_eq_cons_iff.mp read
  obtain ⟨same, text⟩ := of_lexeme first
  exact ⟨t, r, rfl, same, text, rest⟩

theorem code_of_isValuePart {t : Token} {depth : Nat} (part : t.isValuePart depth = true) :
    (t.kind == .comment) = false := by
  simp only [isValuePart, Bool.and_eq_true, bne_iff_ne] at part
  exact beq_false_of_ne part.1.1

/-- Where a token ends a default value, a value does not hold it. -/
theorem going_of_isValuePart {t : Token} {depth : Nat} (part : t.isValuePart depth = true) :
    (depth == 0 && Cursor.endsDefault t) = false := by
  have code := code_of_isValuePart part
  rw [Bool.and_eq_false_iff]
  by_cases outer : depth = 0
  · simp only [isValuePart, outer, bne_self_eq_false, Bool.false_or, Bool.and_eq_true, Bool.not_eq_true',
      Bool.or_eq_false_iff] at part
    exact .inr (by simp [Cursor.endsDefault, code, part.2])
  · exact .inl (by simpa using outer)

theorem not_endsDefault_of_isOpenBracket {t : Token} (opens : t.isOpenBracket = true) :
    Cursor.endsDefault t = false := by
  have kind := kind_of_isOpenBracket opens
  have other {mark : String} (text : t.text = mark) : mark = "(" ∨ mark = "[" ∨ mark = "\x7b" := by
    simpa [isOpenBracket, isPunct, is, kind, text, or_assoc] using opens
  rw [Bool.eq_false_iff]
  intro ends
  have marks : t.text = ";" ∨ t.text = "," := by
    simpa [Cursor.endsDefault, isNewline, isPunct, is, kind] using ends
  rcases marks with text | text <;> simpa using other text

end Token

section Lists

variable {α : Type} {lexemes : α → List (TokenKind × List Char)}

theorem listLexemes_cons_cons (s t : Spaced α) (items : List (Spaced α)) :
    listLexemes lexemes (s :: t :: items) =
      s.lexemes lexemes ++ (.punctuation, [',']) :: listLexemes lexemes (t :: items) := by
  simp [listLexemes]

theorem listLexemes_singleton (s : Spaced α) : listLexemes lexemes [s] = s.lexemes lexemes := by
  simp [listLexemes]

end Lists

/-- Lexemes on one line that a value holds where `depth` brackets are open. -/
structure Lexer.Held (depth : Nat) (xs : List (TokenKind × List Char)) : Prop where
  balanced : ∀ ys, closesValue depth ((xs ++ ys).map Token.ofLexeme) = closesValue depth (ys.map Token.ofLexeme)
  plain : ∀ x ∈ xs, x.1 ≠ .newline ∧ x.1 ≠ .nameFunction

namespace Lexer.Held

variable {depth : Nat} {xs ys : List (TokenKind × List Char)}

theorem nil : Held depth [] :=
  ⟨fun _ => rfl, by simp⟩

theorem append (first : Held depth xs) (second : Held depth ys) : Held depth (xs ++ ys) := by
  refine ⟨fun zs => ?_, List.forall_mem_append.mpr ⟨first.plain, second.plain⟩⟩
  rw [List.append_assoc, first.balanced, second.balanced]

theorem word {kind : TokenKind} {cs : List Char}
    (code : kind = .whitespace ∨ kind = .name ∨ kind = .number ∨ kind = .operator ∨ kind = .string)
    (rest : Held depth xs) : Held depth ((kind, cs) :: xs) := by
  refine ⟨fun zs => ?_, List.forall_mem_cons.mpr ⟨?_, rest.plain⟩⟩
  · rw [← rest.balanced zs]
    rcases code with rfl | rfl | rfl | rfl | rfl <;>
      simp [closesValue, Token.ofLexeme, Token.isOpenBracket, Token.isCloseBracket, Token.isPunct, Token.is,
        Token.isValuePart, Token.isNewline]
  · rcases code with rfl | rfl | rfl | rfl | rfl <;> simp

theorem gap (w : List Char) : Held depth (gapLexemes w) := by
  rw [gapLexemes]
  split
  · exact .nil
  · exact .word (.inl rfl) .nil

theorem mark {c : Char} (mark : c = '.' ∨ c = ',' ∧ depth ≠ 0) (rest : Held depth xs) :
    Held depth ((.punctuation, [c]) :: xs) := by
  refine ⟨fun zs => ?_, List.forall_mem_cons.mpr ⟨by simp, rest.plain⟩⟩
  have plain : (Token.ofLexeme (.punctuation, [c])).isOpenBracket = false ∧
      (Token.ofLexeme (.punctuation, [c])).isCloseBracket = false := by
    rcases mark with rfl | ⟨rfl, -⟩ <;> decide
  have part : (Token.ofLexeme (.punctuation, [c])).isValuePart depth = true := by
    rcases mark with rfl | ⟨rfl, inside⟩
    · rw [Token.isValuePart]
      generalize (depth != 0) = within
      cases within <;> decide
    · rw [Token.isValuePart, show (depth != 0) = true by simpa using inside]
      decide
  rw [← rest.balanced zs, List.cons_append, List.map_cons, closesValue, if_neg (by simp [plain]),
    if_neg (by simp [plain]), part, Bool.true_and]

theorem bracket {opening closing : Char}
    (pair : opening = '(' ∧ closing = ')' ∨ opening = '\x7b' ∧ closing = '\x7d') (inner : Held (depth + 1) xs) :
    Held depth ((.punctuation, [opening]) :: (xs ++ [(.punctuation, [closing])])) := by
  refine ⟨fun zs => ?_, ?_⟩
  · have opens : (Token.ofLexeme (.punctuation, [opening])).isOpenBracket = true := by
      rcases pair with ⟨rfl, -⟩ | ⟨rfl, -⟩ <;> decide
    have closes : (Token.ofLexeme (.punctuation, [closing])).isOpenBracket = false ∧
        (Token.ofLexeme (.punctuation, [closing])).isCloseBracket = true := by
      rcases pair with ⟨-, rfl⟩ | ⟨-, rfl⟩ <;> decide
    rw [List.cons_append, List.map_cons, closesValue, if_pos opens, List.append_assoc, inner.balanced,
      List.singleton_append, List.map_cons, closesValue, if_neg (by simp [closes]), if_pos closes.2]
    simp
  · simp only [List.forall_mem_cons, List.forall_mem_append]
    exact ⟨by simp, inner.plain, by simp, by simp⟩

theorem list {α : Type} {lexemes : α → List (TokenKind × List Char)}
    (item : ∀ a, Held (depth + 1) (lexemes a)) (items : List (Spaced α)) :
    Held (depth + 1) (listLexemes lexemes items) := by
  have spaced (s : Spaced α) : Held (depth + 1) (s.lexemes lexemes) :=
    (gap s.before).append ((item s.item).append (gap s.after))
  rcases items with _ | ⟨s, items⟩
  · exact .nil
  induction items generalizing s with
  | nil => exact listLexemes_singleton s ▸ spaced s
  | cons t items ih =>
    rw [listLexemes_cons_cons]
    exact (spaced s).append (.mark (.inr ⟨rfl, by simp⟩) (ih t))

theorem part {α : Type} {lexemes : α → List (TokenKind × List Char)} (item : ∀ a, Held depth (lexemes a))
    (part : Option α) : Held depth (partLexemes lexemes part) := by
  cases part with
  | none => exact .nil
  | some a => exact .word (.inl rfl) (item a)

end Lexer.Held

/-- A default value with its mark is held where it stands. -/
theorem IsValue.closed {value : Option String} {xs : List (TokenKind × List Char)} (isValue : IsValue value xs) :
    closesValue 0 (xs.map Token.ofLexeme) = true ∧ ∀ x ∈ xs, x.1 ≠ .nameFunction := by
  cases isValue with
  | none => exact ⟨rfl, by simp⟩
  | @some w xs gap closed plain solid filled =>
    have mark : Held 0 [(.whitespace, [' ']), (.operator, ['=']), (.whitespace, ' ' :: w)] :=
      .word (by simp) (.word (by simp) (.word (by simp) .nil))
    exact ⟨(mark.balanced xs).trans closed, by simpa using plain⟩

theorem DimensionText.held (d : DimensionText) (depth : Nat) : Held depth d.lexemes := by
  cases d with
  | number => exact .word (by simp) .nil
  | any => exact .word (by simp) .nil

theorem ArgumentText.held (a : ArgumentText) (depth : Nat) : Held depth a.lexemes := by
  cases a with
  | name => exact .word (by simp) .nil
  | integer sign =>
    cases sign with
    | none => exact .word (by simp) .nil
    | some => exact .word (by simp) (.word (by simp) .nil)
  | quoted => exact .word (by simp) .nil

theorem ValidatorText.held (v : ValidatorText) (depth : Nat) : Held depth v.lexemes := by
  obtain ⟨w, arguments⟩ := v
  cases arguments with
  | none => exact .word (by simp) .nil
  | some items => exact .word (by simp) (.bracket (.inl ⟨rfl, rfl⟩) (.list (fun a => a.held _) items))

theorem TypeText.held (t : TypeText) (depth : Nat) : Held depth t.lexemes := by
  refine .word (by simp) ?_
  induction t.fields with
  | nil => exact .nil
  | cons f fields ih => exact .mark (.inl rfl) (.word (by simp) ih)

theorem EntryText.held_spec (e : EntryText) : Held 0 e.specLexemes :=
  have size := Held.part (fun items => .bracket (.inl ⟨rfl, rfl⟩) (.list (DimensionText.held · 1) items)) e.size
  have type := Held.part (TypeText.held · 0) e.type
  have checks := Held.part (fun items => .bracket (.inr ⟨rfl, rfl⟩) (.list (ValidatorText.held · 1) items))
    e.validators
  size.append (type.append checks)

namespace Cursor

section Sizes

/-- Tokens that give dimensions, whatever stands behind them. -/
def GivesSize (ts : List Token) (ds : List Dimension) : Prop :=
  ∀ passed rest, sizeFrom false passed (ts ++ rest) =
    ((sizeFrom false (ts.reverse ++ passed) rest).1.map (ds ++ ·), (sizeFrom false (ts.reverse ++ passed) rest).2)

theorem GivesSize.nil : GivesSize [] [] := by
  intro passed rest
  simp

theorem GivesSize.append {ts us : List Token} {ds es : List Dimension} (first : GivesSize ts ds)
    (second : GivesSize us es) : GivesSize (ts ++ us) (ds ++ es) := by
  intro passed rest
  rw [List.append_assoc, first, second, List.reverse_append, List.append_assoc, Option.map_map]
  simp [Function.comp_def]

theorem givesSize_skip {t : Token} (skipped : t.kind = .whitespace ∨ t.segment = (.punctuation, ",")) :
    GivesSize [t] [] := by
  intro passed rest
  rcases skipped with kind | comma
  · have marker : t.isContinuation = false := by simp [Token.isContinuation, kind]
    simp [sizeFrom, Token.isPunct, Token.is, Token.isNewline, marker, Token.isSpacing, Token.isWhitespace, kind]
  · obtain ⟨kind, text⟩ := Prod.mk.inj comma
    have marker : t.isContinuation = false := by simp [Token.isContinuation, kind]
    simp [sizeFrom, Token.isPunct, Token.is, Token.isNewline, marker, Token.isSpacing, Token.isWhitespace, kind,
      text]

theorem givesSize_any {t : Token} (colon : t.segment = (.operator, ":")) : GivesSize [t] [.any] := by
  intro passed rest
  obtain ⟨kind, text⟩ := Prod.mk.inj colon
  have marker : t.isContinuation = false := by simp [Token.isContinuation, kind]
  simp [sizeFrom, Token.isPunct, Token.is, Token.isNewline, marker, Token.isSpacing, Token.isWhitespace,
    Token.isOperator, kind, text]

theorem givesSize_number {t : Token} (kind : t.kind = .number) {n : Nat}
    (value : Numeral.word? t.text = some n) : GivesSize [t] [.fixed n] := by
  intro passed rest
  have marker : t.isContinuation = false := by simp [Token.isContinuation, kind]
  simp [sizeFrom, Token.isPunct, Token.is, Token.isNewline, marker, Token.isSpacing, Token.isWhitespace,
    Token.isOperator, kind, value]

end Sizes

end Cursor

theorem Numeral.word?_digits {ds : List Char} (written : isNonemptyDigits ds = true) (fits : value ds < wordLimit) :
    word? (String.ofList ds) = some (value ds) := by
  rw [word?, String.toList_ofList]
  split
  · next r =>
    have sign : '+'.isDigit = true := by
      simp only [isNonemptyDigits, List.all_cons, Bool.and_eq_true] at written
      exact written.2.1
    exact absurd sign (by decide)
  · simp [written, fits]

/-- The dimension that is written. -/
def DimensionText.dimension : DimensionText → Dimension
  | number digits _ _ => .fixed (Numeral.value digits)
  | any => .any

namespace Cursor

theorem givesSize_gap {w : List Char} {ts : List Token} (read : ts.map Token.lexeme = gapLexemes w) :
    GivesSize ts [] := by
  rw [gapLexemes] at read
  split at read
  · obtain rfl := List.map_eq_nil_iff.mp read
    exact .nil
  · obtain ⟨t, r, rfl, kind, -, rest⟩ := Token.eq_cons_of_lexemes read
    obtain rfl := List.map_eq_nil_iff.mp rest
    exact givesSize_skip (.inl kind)

theorem givesSize_dimension {d : DimensionText} {ts : List Token} (read : ts.map Token.lexeme = d.lexemes) :
    GivesSize ts [d.dimension] := by
  cases d with
  | number ds written fits =>
    obtain ⟨t, r, rfl, kind, text, rest⟩ := Token.eq_cons_of_lexemes read
    obtain rfl := List.map_eq_nil_iff.mp rest
    exact givesSize_number kind (text ▸ Numeral.word?_digits written fits)
  | any =>
    obtain ⟨t, r, rfl, kind, text, rest⟩ := Token.eq_cons_of_lexemes read
    obtain rfl := List.map_eq_nil_iff.mp rest
    exact givesSize_any (Prod.ext kind text)

theorem givesSize_spaced {s : Spaced DimensionText} {ts : List Token}
    (read : ts.map Token.lexeme = s.lexemes DimensionText.lexemes) : GivesSize ts [s.item.dimension] := by
  obtain ⟨before, rest, rfl, gap, read⟩ := List.map_eq_append_iff.mp read
  obtain ⟨item, after, rfl, item_read, gap'⟩ := List.map_eq_append_iff.mp read
  exact (givesSize_gap gap).append ((givesSize_dimension item_read).append (givesSize_gap gap'))

/-- A list of dimensions is read in order. -/
theorem givesSize_list {items : List (Spaced DimensionText)} {ts : List Token}
    (read : ts.map Token.lexeme = listLexemes DimensionText.lexemes items) :
    GivesSize ts (items.map (·.item.dimension)) := by
  rcases items with _ | ⟨s, items⟩
  · obtain rfl := List.map_eq_nil_iff.mp read
    exact .nil
  induction items generalizing s ts with
  | nil => exact givesSize_spaced (listLexemes_singleton s ▸ read)
  | cons t items ih =>
    rw [listLexemes_cons_cons] at read
    obtain ⟨first, rest, rfl, item, read⟩ := List.map_eq_append_iff.mp read
    obtain ⟨c, rest, rfl, kind, text, read⟩ := Token.eq_cons_of_lexemes read
    exact (givesSize_spaced item).append ((givesSize_skip (.inr (Prod.ext kind text))).append (ih t read))

/-- The fields behind a name are taken into it, up to anything but a dot. -/
theorem dottedFrom_fields {fields : List String} {ts rest : List Token}
    (read : ts.map Token.lexeme = fields.flatMap fun f => [(.punctuation, ['.']), (.name, f.toList)])
    (stop : rest.head?.any (·.isPunct ".") = false) (name : List Char) (passed : List Token) :
    dottedFrom (String.ofList name) passed (ts ++ rest) =
      (String.ofList (name ++ fields.flatMap fun f => '.' :: f.toList), ⟨ts.reverse ++ passed, rest⟩) := by
  induction fields generalizing ts name passed with
  | nil =>
    obtain rfl := List.map_eq_nil_iff.mp read
    simpa using dottedFrom_stop stop (String.ofList name) passed
  | cons f fields ih =>
    obtain ⟨dot, r, rfl, kind, text, read⟩ := Token.eq_cons_of_lexemes read
    obtain ⟨part, r, rfl, kind', text', read⟩ := Token.eq_cons_of_lexemes read
    have joined : (dot.isPunct "." && part.kind == .name) = true := by
      simp [Token.isPunct, Token.is, kind, text, kind']
    have further : String.ofList name ++ "." ++ part.text = String.ofList (name ++ '.' :: f.toList) := by
      rw [text', String.ofList_toList]
      apply String.toList_inj.mp
      simp
    rw [List.cons_append, List.cons_append, dottedFrom, if_pos joined, further, ih read]
    simp

theorem validatorsFrom_part {depth : Nat} {t : Token} (line : t.isNewline = false)
    (closes : t.isCloseBracket = false) (comma : (t.isPunct "," && depth == 0) = false)
    (code : (t.kind == .comment) = false) (current : String) (passed rest : List Token) :
    validatorsFrom current depth passed (t :: rest) =
      validatorsFrom (current ++ t.text) (if t.isOpenBracket then depth + 1 else depth) (t :: passed) rest := by
  rw [validatorsFrom.eq_def]
  simp only [line, closes, comma, code, Bool.false_eq_true, if_false]
  split <;> rfl

/-- Code that brackets balance is taken into the text of a validator. -/
theorem validatorsFrom_closed {depth : Nat} {ts : List Token} (closed : closesValue depth ts = true)
    (line : ∀ t ∈ ts, t.isNewline = false) (current : String) (passed rest : List Token) :
    validatorsFrom current depth passed (ts ++ rest) =
      validatorsFrom (current ++ Token.concat ts) 0 (ts.reverse ++ passed) rest := by
  fun_induction closesValue depth ts generalizing current passed with
  | case1 depth =>
    obtain rfl : depth = 0 := by simpa using closed
    simp [Token.concat]
  | case2 depth t ts opens ih =>
    rw [List.forall_mem_cons] at line
    have closes : t.isCloseBracket = false := by
      rw [Bool.eq_false_iff]
      intro closes
      rw [Token.isOpenBracket_of_isCloseBracket closes] at opens
      cases opens
    have comma : t.isPunct "," = false := by
      have going := Token.not_endsDefault_of_isOpenBracket opens
      rw [endsDefault, Bool.or_eq_false_iff] at going
      exact going.2
    have code : (t.kind == .comment) = false := by simp [Token.kind_of_isOpenBracket opens]
    rw [List.cons_append, validatorsFrom_part line.1 closes (by simp [comma]) code, if_pos opens,
      ih closed line.2]
    simp [String.append_assoc]
  | case3 depth t ts opens closes ih =>
    rw [List.forall_mem_cons] at line
    rw [Bool.and_eq_true, bne_iff_ne] at closed
    have rest := ih closed.2 line.2
    obtain ⟨outer, rfl⟩ := Nat.exists_eq_succ_of_ne_zero closed.1
    rw [List.cons_append, validatorsFrom, if_neg (by simp [line.1]), if_pos closes]
    simp only [Nat.succ_eq_add_one, Nat.add_sub_cancel] at rest ⊢
    rw [rest]
    simp [String.append_assoc]
  | case4 depth t ts opens closes ih =>
    rw [List.forall_mem_cons] at line
    rw [Bool.and_eq_true] at closed
    rw [Bool.not_eq_true] at opens closes
    have comma : (t.isPunct "," && depth == 0) = false := by
      rw [Bool.and_comm, Bool.and_eq_false_iff]
      refine (Bool.and_eq_false_iff.mp (Token.going_of_isValuePart closed.1)).imp_right fun going => ?_
      rw [endsDefault, Bool.or_eq_false_iff] at going
      exact going.2
    rw [List.cons_append, validatorsFrom_part line.1 closes comma (Token.code_of_isValuePart closed.1), opens,
      if_neg (by simp), ih closed.2 line.2]
    simp [String.append_assoc]

/-- The texts between the commas are those of the items with the white space around them. -/
theorem validatorsFrom_list {v : Spaced ValidatorText} {items : List (Spaced ValidatorText)} {ts : List Token}
    (read : ts.map Token.lexeme = listLexemes ValidatorText.lexemes (v :: items)) {close : Token}
    (closes : close.segment = (.punctuation, "\x7d")) (passed rest : List Token) :
    validatorsFrom "" 0 passed (ts ++ close :: rest) =
      ((v :: items).map fun s => String.ofList (s.chars ValidatorText.chars),
        ⟨close :: (ts.reverse ++ passed), rest⟩) := by
  have spaced {s : Spaced ValidatorText} {us : List Token}
      (read : us.map Token.lexeme = s.lexemes ValidatorText.lexemes) (passed rest : List Token) :
      validatorsFrom "" 0 passed (us ++ rest) =
        validatorsFrom (String.ofList (s.chars ValidatorText.chars)) 0 (us.reverse ++ passed) rest := by
    have held : Held 0 (s.lexemes ValidatorText.lexemes) :=
      (Held.gap s.before).append ((s.item.held 0).append (.gap s.after))
    have closed : closesValue 0 us = true := by
      rw [closesValue_of_lexemes read, ← List.append_nil (s.lexemes _), held.balanced]
      rfl
    have line : ∀ t ∈ us, t.isNewline = false := by
      intro t member
      have inside : t.lexeme ∈ s.lexemes ValidatorText.lexemes := read ▸ List.mem_map_of_mem member
      exact beq_false_of_ne (held.plain _ inside).1
    rw [validatorsFrom_closed closed line, Token.concat_of_lexemes read, String.empty_append]
    simp [Spaced.lexemes, Spaced.chars, spelled_append, s.item.isItem.spells]
  induction items generalizing v ts passed with
  | nil =>
    obtain ⟨kind, text⟩ := Prod.mk.inj closes
    rw [listLexemes_singleton] at read
    rw [spaced read, validatorsFrom.eq_def]
    simp [Token.isNewline, Token.isCloseBracket, Token.isPunct, Token.is, kind, text]
  | cons u items ih =>
    rw [listLexemes_cons_cons] at read
    obtain ⟨first, more, rfl, item, read⟩ := List.map_eq_append_iff.mp read
    obtain ⟨c, more, rfl, kind, text, read⟩ := Token.eq_cons_of_lexemes read
    have comma : c.text = "," := text
    rw [List.append_assoc, List.cons_append, spaced item, validatorsFrom.eq_def]
    simp [Token.isNewline, Token.isCloseBracket, Token.isPunct, Token.is, kind, comma, ih read]

end Cursor

/-- The text of a validator without the white space around it. -/
def ValidatorText.text (v : ValidatorText) : String :=
  String.ofList v.chars

theorem solid_of_mem_identifier {w : List Char} (word : isIdentifierChars w = true) :
    ∀ c ∈ w, isBlank c = false := by
  rcases w with _ | ⟨c, w⟩
  · simp
  · rw [isIdentifierChars, Bool.and_eq_true, List.all_eq_true] at word
    rw [List.forall_mem_cons]
    exact ⟨not_isBlank_of_isIdentRest c (isIdentRest_of_isIdentStart c word.1),
      fun d member => not_isBlank_of_isIdentRest d (word.2 d member)⟩

namespace ValidatorText

theorem back (v : ValidatorText) : v.chars.getLast?.any isBlank = false := by
  obtain ⟨w, arguments⟩ := v
  cases arguments with
  | some items =>
    have last : (chars ⟨w, some items⟩).getLast? = some ')' := by
      simp [chars, bracketChars, List.getLast?_append, List.getLast?_cons]
    rw [last]
    rfl
  | none =>
    rw [chars, List.append_nil]
    cases last : w.text.toList.getLast? with
    | none => rfl
    | some c => exact solid_of_mem_identifier w.isIdentifierChars c (List.mem_of_getLast? last)

theorem text_ne_empty (v : ValidatorText) : v.text.isEmpty = false := by
  rw [Bool.eq_false_iff, ne_eq, String.isEmpty_iff, text, String.ofList_eq_empty_iff]
  intro empty
  have solid := v.isItem.solid
  simp [empty] at solid

theorem trim_spaced (s : Spaced ValidatorText) :
    String.ofList (Text.trim (s.chars chars)) = s.item.text := by
  have blank {w : List Char} (gap : IsGap w) : Text.allBlank w = true :=
    List.all_eq_true.mpr fun c member => (gap c member).1
  have front : s.item.chars.head?.any isBlank = false := by
    have solid := s.item.isItem.solid
    cases first : s.item.chars.head? with
    | none => rfl
    | some c => simpa [first] using solid
  rw [Spaced.chars, Text.trim_blank_append (blank s.gapBefore), Text.trim_append_blank (blank s.gapAfter),
    Text.trim_of_solid front s.item.back, text]

end ValidatorText

namespace Cursor

/-- A list of validators is read as their texts. -/
theorem validators_list {items : List (Spaced ValidatorText)} {ts : List Token}
    (read : ts.map Token.lexeme = listLexemes ValidatorText.lexemes items) {close : Token}
    (closes : close.segment = (.punctuation, "\x7d")) (passed rest : List Token) :
    validators ⟨passed, ts ++ close :: rest⟩ =
      (items.map fun s => s.item.text, ⟨close :: (ts.reverse ++ passed), rest⟩) := by
  rcases items with _ | ⟨v, items⟩
  · obtain rfl := List.map_eq_nil_iff.mp read
    obtain ⟨kind, text⟩ := Prod.mk.inj closes
    simp [validators, validatorsFrom, Token.isNewline, Token.isCloseBracket, Token.isPunct, Token.is, kind, text,
      Text.trim, Text.trimStart, Text.trimEnd, Text.trimEndBy]
  · rw [validators, validatorsFrom_list read closes]
    have texts : ((v :: items).map fun s => String.ofList (s.chars ValidatorText.chars)).map
        (fun s => String.ofList (Text.trim s.toList)) = (v :: items).map fun s => s.item.text := by
      simp only [List.map_map, Function.comp_def, String.toList_ofList, ValidatorText.trim_spaced]
    have filled : ∀ s ∈ (v :: items).map fun s => s.item.text, (!s.isEmpty) = true := by
      intro s member
      obtain ⟨u, -, rfl⟩ := List.mem_map.mp member
      rw [u.item.text_ne_empty]
      rfl
    simp only [texts, List.filter_eq_self.mpr filled]

theorem defaultFrom_part {depth : Nat} {t : Token} (code : (t.kind == .comment) = false)
    (going : (depth == 0 && endsDefault t) = false) (passed rest : List Token) :
    defaultFrom depth ⟨passed, t :: rest⟩ =
      (String.ofList (piece t.lexeme) ++ (defaultFrom (bracketDepth depth t) ⟨t :: passed, rest⟩).1,
        (defaultFrom (bracketDepth depth t) ⟨t :: passed, rest⟩).2) := by
  have marker : t.isContinuation = false := by simp [Token.isContinuation, code]
  have text : defaultPiece t = String.ofList (piece t.lexeme) := by
    rw [defaultPiece, piece]
    by_cases newline : t.kind = .newline
    · simp [Token.isNewline, newline, Token.lexeme]
    · simp [Token.isNewline, newline, Token.lexeme, code]
  rw [defaultFrom_eq]
  simp only [peek, List.head?_cons, marker, going, Bool.false_eq_true, if_false, text, advance]

/-- A default value is read up to the line end behind its last bracket. -/
theorem defaultFrom_closed {depth : Nat} {ts : List Token} (closed : closesValue depth ts = true) {e : Token}
    (ends : e.kind = .newline) (passed rest : List Token) :
    defaultFrom depth ⟨passed, ts ++ e :: rest⟩ =
      (String.ofList ((ts.map Token.lexeme).flatMap piece), ⟨ts.reverse ++ passed, e :: rest⟩) := by
  fun_induction closesValue depth ts generalizing passed with
  | case1 depth =>
    obtain rfl : depth = 0 := by simpa using closed
    rw [List.nil_append, defaultFrom_eq]
    simp [peek, Token.isContinuation, endsDefault, Token.isNewline, ends]
  | case2 depth t ts opens ih =>
    have kind := Token.kind_of_isOpenBracket opens
    have going : (depth == 0 && endsDefault t) = false := by
      rw [Token.not_endsDefault_of_isOpenBracket opens, Bool.and_false]
    rw [List.cons_append, defaultFrom_part (by simp [kind]) going, bracketDepth, if_pos opens, ih closed]
    simp
  | case3 depth t ts opens closes ih =>
    have kind := Token.kind_of_isCloseBracket closes
    rw [Bool.and_eq_true, bne_iff_ne] at closed
    rw [List.cons_append, defaultFrom_part (by simp [kind]) (by simp [closed.1]), bracketDepth, if_neg opens,
      if_pos closes, ih closed.2]
    simp
  | case4 depth t ts opens closes ih =>
    rw [Bool.and_eq_true] at closed
    have going := Token.going_of_isValuePart closed.1
    rw [List.cons_append, defaultFrom_part (Token.code_of_isValuePart closed.1) going, bracketDepth,
      if_neg opens, if_neg closes, ih closed.2]
    simp

end Cursor

end MatlabOutline
