import MatlabOutline.Proofs.Declaration.EntryParts

/-!
Reading entries. Main statement: from the tokens of an entry its name, size, type, validators and default
value are read as they were written, whatever stands below (`Reader.entry_tokens`).
-/

namespace MatlabOutline

open Lexer

/-- What the entry says of its property. -/
def EntryText.spec (e : EntryText) : ValueSpec where
  size := e.size.map (·.map (·.item.dimension))
  typeName := e.type.map fun t => String.ofList t.chars
  validators := e.validators.map (·.map fun s => s.item.text)
  default := e.default.map ValueText.trimmed

/-- The place that a token has among those that can begin a part of an entry behind its name: a size, a
type, validators, a default value. -/
def Token.partOrder (t : Token) : Nat :=
  if t.isPunct "(" then 0 else if t.kind == .name then 1 else if t.isPunct "\x7b" then 2
  else if t.isOperator "=" then 3 else 4

namespace Cursor

/-- The first token behind white space may begin a part of an entry, but no part before the `n`th. -/
structure Follows (n : Nat) (ts : List Token) : Prop where
  spaced : ts.head?.any Token.isSpacing = true
  later : ∃ gap t r, ts = gap ++ t :: r ∧ (∀ g ∈ gap, g.isWhitespace = true) ∧ t.isWhitespace = false ∧
    (t.kind == .comment) = false ∧ n ≤ t.partOrder

theorem skipWhitespace_split {gap : List Token} (white : ∀ g ∈ gap, g.isWhitespace = true) {t : Token}
    (solid : t.isWhitespace = false) (code : (t.kind == .comment) = false) (passed rest : List Token) :
    skipWhitespace ⟨passed, gap ++ t :: rest⟩ = ⟨gap.reverse ++ passed, t :: rest⟩ :=
  skip_over white solid (by simp [Token.isContinuation, code]) passed rest

/-- No part that is read before the `n`th is found. -/
theorem Follows.take?_eq_none {n : Nat} {ts : List Token} (follows : Follows n ts) {p : Token → Bool}
    (before : ∀ t, p t = true → t.partOrder < n) (passed : List Token) :
    (skipWhitespace ⟨passed, ts⟩).take? p = none := by
  obtain ⟨gap, t, r, rfl, white, solid, code, order⟩ := follows.later
  rw [skipWhitespace_split white solid code, take?]
  simp only
  rw [if_neg fun found => Nat.not_lt_of_le order (before t found)]

section Parts

variable {α : Type} {lexemes : α → List (TokenKind × List Char)} {kind : TokenKind} {cs : List Char}

/-- A part that is there is found behind its space. -/
theorem exists_part {a : α} {rest : List (TokenKind × List Char)} (first : lexemes a = (kind, cs) :: rest)
    (code : kind ≠ .whitespace ∧ kind ≠ .comment) {ts : List Token}
    (read : ts.map Token.lexeme = partLexemes lexemes (some a)) :
    ∃ w t r, ts = w :: t :: r ∧ w.isWhitespace = true ∧ t.segment = (kind, String.ofList cs) ∧
      r.map Token.lexeme = rest ∧
      ∀ passed more, skipWhitespace ⟨passed, ts ++ more⟩ = ⟨w :: passed, t :: (r ++ more)⟩ := by
  rw [partLexemes, first] at read
  obtain ⟨w, ts, rfl, white, -, read⟩ := Token.eq_cons_of_lexemes read
  obtain ⟨t, r, rfl, same, text, read⟩ := Token.eq_cons_of_lexemes read
  have blank : w.isWhitespace = true := by simp [Token.isWhitespace, white]
  have white : ∀ g ∈ [w], g.isWhitespace = true := by simpa using blank
  exact ⟨w, t, r, rfl, blank, Prod.ext same text, read, fun passed more =>
    skipWhitespace_split white (by simp [Token.isWhitespace, same, code.1]) (by simp [same, code.2]) passed
      (r ++ more)⟩

/-- A part that may be left out does not begin before its place. -/
theorem Follows.part {n : Nat} {rest : List Token} (follows : Follows (n + 1) rest) {part : Option α}
    (first : ∀ a, ∃ kind cs more, lexemes a = (kind, cs) :: more ∧ kind ≠ .whitespace ∧ kind ≠ .comment ∧
      n ≤ (Token.ofLexeme (kind, cs)).partOrder) {ts : List Token}
    (read : ts.map Token.lexeme = partLexemes lexemes part) : Follows n (ts ++ rest) := by
  cases part with
  | none =>
    obtain rfl := List.map_eq_nil_iff.mp read
    obtain ⟨gap, t, r, whole, white, solid, code, order⟩ := follows.later
    exact ⟨follows.spaced, gap, t, r, whole, white, solid, code, Nat.le_of_succ_le order⟩
  | some a =>
    obtain ⟨kind, cs, more, first, solid, code, order⟩ := first a
    obtain ⟨w, t, r, rfl, blank, same, -⟩ := exists_part first ⟨solid, code⟩ read
    obtain ⟨same, text⟩ := Prod.mk.inj same
    refine ⟨by simp [Token.isSpacing, blank], [w], t, r ++ rest, rfl, by simpa using blank,
      by simp [Token.isWhitespace, same, solid], by simp [same, code], ?_⟩
    simpa [Token.partOrder, Token.ofLexeme, Token.isPunct, Token.isOperator, Token.is, same, text] using order

end Parts

section Stages

variable {ts rest : List Token} (passed : List Token)

/-- A list in brackets is read with its closing bracket. -/
theorem exists_bracket {α : Type} {lexemes : α → List (TokenKind × List Char)} {opening closing : Char}
    {items : List (Spaced α)}
    (read : ts.map Token.lexeme = partLexemes (bracketLexemes opening closing lexemes) (some items)) :
    ∃ w t list close, t.segment = (.punctuation, String.ofList [opening]) ∧
      close.segment = (.punctuation, String.ofList [closing]) ∧
      list.map Token.lexeme = listLexemes lexemes items ∧
      ∀ passed rest, skipWhitespace ⟨passed, ts ++ rest⟩ = ⟨w :: passed, t :: (list ++ close :: rest)⟩ := by
  obtain ⟨w, t, r, rfl, -, first, read, moved⟩ := exists_part rfl (by simp) read
  obtain ⟨list, last, rfl, inner, read⟩ := List.map_eq_append_iff.mp read
  obtain ⟨close, r, rfl, kind, text, read⟩ := Token.eq_cons_of_lexemes read
  obtain rfl := List.map_eq_nil_iff.mp read
  refine ⟨w, t, list, close, first, Prod.ext kind text, inner, fun passed rest => ?_⟩
  rw [moved, List.append_assoc, List.singleton_append]

theorem entryType_part (type : Option TypeText) (read : ts.map Token.lexeme = partLexemes TypeText.lexemes type)
    (follows : Follows 2 rest) :
    ∃ passed', entryType (skipWhitespace ⟨passed, ts ++ rest⟩) =
      (type.map fun t => String.ofList t.chars, skipWhitespace ⟨passed', rest⟩) := by
  cases type with
  | none =>
    obtain rfl := List.map_eq_nil_iff.mp read
    have other : ∀ t, isName t = true → t.partOrder < 2 := by
      intro t name
      have kind : t.kind = .name := by simpa [isName] using name
      simp [Token.partOrder, Token.isPunct, Token.is, kind]
    refine ⟨passed, ?_⟩
    rw [List.nil_append, entryType, dottedName?, follows.take?_eq_none other]
    rfl
  | some type =>
    obtain ⟨w, t, r, rfl, -, first, read, moved⟩ := exists_part rfl (by simp) read
    obtain ⟨kind, text⟩ := Prod.mk.inj first
    have stop : rest.head?.any (·.isPunct ".") = false := by
      have spaced := follows.spaced
      rcases rest with _ | ⟨u, rest⟩
      · rfl
      · have kind : u.kind = .whitespace ∨ u.kind = .newline := by
          simpa [Token.isSpacing, Token.isWhitespace, Token.isNewline] using spaced
        rcases kind with kind | kind <;> simp [Token.isPunct, Token.is, kind]
    refine ⟨r.reverse ++ t :: w :: passed, ?_⟩
    rw [moved, entryType, dottedName?]
    simp only [take?, isName, kind, beq_self_eq_true, if_true, text]
    rw [dottedFrom_fields read stop]
    rfl

theorem entryValidators_part (checks : Option (List (Spaced ValidatorText)))
    (read : ts.map Token.lexeme = partLexemes (bracketLexemes '\x7b' '\x7d' ValidatorText.lexemes) checks)
    (follows : Follows 3 rest) :
    ∃ passed', entryValidators (skipWhitespace ⟨passed, ts ++ rest⟩) =
      (checks.map (·.map fun s => s.item.text), skipWhitespace ⟨passed', rest⟩) := by
  cases checks with
  | none =>
    obtain rfl := List.map_eq_nil_iff.mp read
    have other : ∀ t, Token.isPunct t "\x7b" = true → t.partOrder < 3 := by
      intro t brace
      rw [Token.partOrder, if_pos brace]
      repeat' split
      all_goals decide
    refine ⟨passed, ?_⟩
    rw [List.nil_append, entryValidators, follows.take?_eq_none other]
    rfl
  | some items =>
    obtain ⟨w, t, list, close, opens, closes, inner, moved⟩ := exists_bracket read
    obtain ⟨kind, text⟩ := Prod.mk.inj opens
    have brace : t.text = "\x7b" := text
    refine ⟨close :: (list.reverse ++ t :: w :: passed), ?_⟩
    rw [moved, entryValidators]
    simp [take?, Token.isPunct, Token.is, kind, brace, validators_list inner closes]

variable (rest) in
theorem entryDefault_part {value : Option String} {xs : List (TokenKind × List Char)} (isValue : IsValue value xs)
    (read : ts.map Token.lexeme = xs) {e : Token} (ends : e.kind = .newline) :
    ∃ passed', entryDefault (skipWhitespace ⟨passed, ts ++ e :: rest⟩) = (value, ⟨passed', e :: rest⟩) := by
  cases isValue with
  | none =>
    obtain rfl := List.map_eq_nil_iff.mp read
    have stays : skipWhitespace ⟨passed, e :: rest⟩ = ⟨passed, e :: rest⟩ :=
      skipWhitespace_blank words_nil ends passed rest
    refine ⟨passed, ?_⟩
    rw [List.nil_append, stays]
    simp [entryDefault, take?, Token.isOperator, Token.is, ends]
  | @some w xs gap closed plain solid filled =>
    obtain ⟨w₁, ts, rfl, white₁, -, read⟩ := Token.eq_cons_of_lexemes read
    obtain ⟨mark, ts, rfl, kind, text, read⟩ := Token.eq_cons_of_lexemes read
    obtain ⟨w₂, ts, rfl, white₂, -, read⟩ := Token.eq_cons_of_lexemes read
    have equals : mark.text = "=" := text
    have marked : skipWhitespace ⟨passed, w₁ :: mark :: w₂ :: (ts ++ e :: rest)⟩ =
        ⟨w₁ :: passed, mark :: w₂ :: (ts ++ e :: rest)⟩ :=
      skipWhitespace_split (show ∀ g ∈ [w₁], g.isWhitespace = true by simpa [Token.isWhitespace] using white₁)
        (by simp [Token.isWhitespace, kind]) (by simp [kind]) passed _
    have begun : skipWhitespace ⟨mark :: w₁ :: passed, w₂ :: (ts ++ e :: rest)⟩ =
        ⟨w₂ :: mark :: w₁ :: passed, ts ++ e :: rest⟩ := by
      obtain ⟨t, more, whole, first, code⟩ : ∃ t more, ts ++ e :: rest = t :: more ∧ t.isWhitespace = false ∧
          (t.kind == .comment) = false := by
        rcases ts with _ | ⟨t, ts⟩
        · exact ⟨e, rest, rfl, by simp [Token.isWhitespace, ends], by simp [ends]⟩
        · subst read
          exact ⟨t, _, rfl, beq_false_of_ne (solid t.lexeme rfl),
            beq_false_of_ne (isCode_of_closesValue closed t.lexeme (by simp)).1⟩
      rw [whole]
      exact skipWhitespace_split (show ∀ g ∈ [w₂], g.isWhitespace = true by simpa [Token.isWhitespace] using white₂)
        first code _ more
    have known := defaultFrom_closed ((closesValue_of_lexemes read 0).trans closed) ends
      (w₂ :: mark :: w₁ :: passed) rest
    refine ⟨ts.reverse ++ w₂ :: mark :: w₁ :: passed, ?_⟩
    rw [List.cons_append, List.cons_append, List.cons_append, marked, entryDefault]
    simp only [take?, Token.isOperator, Token.is, kind, equals, beq_self_eq_true, Bool.and_self, if_true, begun,
      defaultText, known, read, String.toList_ofList]
    have kept : (String.ofList (Text.trim (xs.flatMap piece))).isEmpty = false := by
      rw [Bool.eq_false_iff, ne_eq, String.isEmpty_iff, String.ofList_eq_empty_iff, Text.trim_eq_nil_iff, filled]
      simp
    simp [kept]

variable (rest) in
theorem follows_value {value : Option String} {xs : List (TokenKind × List Char)} (isValue : IsValue value xs)
    (read : ts.map Token.lexeme = xs) {e : Token} (ends : e.kind = .newline) : Follows 3 (ts ++ e :: rest) := by
  cases isValue with
  | none =>
    obtain rfl := List.map_eq_nil_iff.mp read
    refine ⟨by simp [Token.isSpacing, Token.isNewline, ends], [], e, rest, rfl, by simp,
      by simp [Token.isWhitespace, ends], by simp [ends], ?_⟩
    simp [Token.partOrder, Token.isPunct, Token.isOperator, Token.is, ends]
  | some =>
    obtain ⟨w, ts, rfl, white, -, read⟩ := Token.eq_cons_of_lexemes read
    obtain ⟨mark, ts, rfl, kind, text, -⟩ := Token.eq_cons_of_lexemes read
    refine ⟨by simp [Token.isSpacing, Token.isWhitespace, white], [w], mark, ts ++ e :: rest, rfl,
      by simpa [Token.isWhitespace] using white, by simp [Token.isWhitespace, kind], by simp [kind], ?_⟩
    have equals : mark.text = "=" := text
    simp [Token.partOrder, Token.isPunct, Token.isOperator, Token.is, kind, equals]

end Stages

end Cursor

namespace Reader

theorem entrySize_part {ts rest : List Token} (passed : List Token) (size : Option (List (Spaced DimensionText)))
    (sized : size ≠ some [])
    (read : ts.map Token.lexeme = partLexemes (bracketLexemes '(' ')' DimensionText.lexemes) size)
    (follows : Cursor.Follows 1 rest) (name : String) (notes : List Note) :
    ∃ passed', entrySize name ⟨Cursor.skipWhitespace ⟨passed, ts ++ rest⟩, notes⟩ =
      (size.map (·.map (·.item.dimension)), ⟨Cursor.skipWhitespace ⟨passed', rest⟩, notes⟩) := by
  cases size with
  | none =>
    obtain rfl := List.map_eq_nil_iff.mp read
    have other : ∀ t, Token.isPunct t "(" = true → t.partOrder < 1 := by
      intro t opening
      rw [Token.partOrder, if_pos opening]
      decide
    refine ⟨passed, ?_⟩
    rw [List.nil_append, entrySize, follows.take?_eq_none other]
    rfl
  | some items =>
    obtain ⟨w, t, list, close, opens, closes, inner, moved⟩ := Cursor.exists_bracket read
    obtain ⟨kind, text⟩ := Prod.mk.inj opens
    have opening : t.text = "(" := text
    obtain ⟨s, items, rfl⟩ := List.exists_cons_of_ne_nil fun none => sized (congrArg some none)
    have gives := Cursor.givesSize_list inner (t :: w :: passed) (close :: rest)
    have closed : Cursor.sizeFrom false (list.reverse ++ t :: w :: passed) (close :: rest) =
        (some [], ⟨close :: (list.reverse ++ t :: w :: passed), rest⟩) := by
      have mark : close.isPunct ")" = true := by
        obtain ⟨kind, text⟩ := Prod.mk.inj closes
        simp [Token.isPunct, Token.is, kind, text]
      rw [Cursor.sizeFrom, if_pos mark]
    refine ⟨close :: (list.reverse ++ t :: w :: passed), ?_⟩
    rw [closed] at gives
    rw [moved, entrySize]
    simp [Cursor.take?, Token.isPunct, Token.is, kind, opening, gives, withCursor]

/-- An entry is read as it was written, up to its line end. -/
theorem entry_tokens (e : EntryText) {name feed : Token} {spec value : List Token}
    (named : name.segment = (.name, e.name.text)) (specified : spec.map Token.lexeme = e.specLexemes)
    {xs : List (TokenKind × List Char)} (isValue : IsValue (e.default.map ValueText.trimmed) xs)
    (valued : value.map Token.lexeme = xs) (ends : feed.kind = .newline) (passed rest : List Token)
    (notes : List Note) :
    ∃ passed' last, entry false ⟨⟨passed, name :: (spec ++ (value ++ feed :: rest))⟩, notes⟩ =
      ({ name := e.name.text, firstLine := name.line, lastLine := last, spec := e.spec, trailing := none },
        ⟨⟨passed', feed :: rest⟩, notes⟩) := by
  obtain ⟨size, spec, rfl, sizes, specified⟩ := List.map_eq_append_iff.mp specified
  obtain ⟨type, checks, rfl, types, validators⟩ := List.map_eq_append_iff.mp specified
  have behind := Cursor.follows_value rest isValue valued ends
  have between := behind.part (fun _ => ⟨_, _, _, rfl, by simp, by simp, by decide⟩) validators
  have before := between.part (fun _ => ⟨_, _, _, rfl, by simp, by simp,
    by simp [Token.partOrder, Token.ofLexeme, Token.isPunct, Token.is]⟩) types
  obtain ⟨kind, text⟩ := Prod.mk.inj named
  have first : Cursor.entryName false ⟨passed, name :: (size ++ (type ++ checks) ++ (value ++ feed :: rest))⟩ =
      (e.name.text, ⟨name :: passed, size ++ (type ++ (checks ++ (value ++ feed :: rest)))⟩) := by
    simp [Cursor.entryName, Cursor.take?, Cursor.isName, kind, text]
  obtain ⟨passed₁, sized⟩ := entrySize_part (name :: passed) e.size e.sized sizes before e.name.text notes
  obtain ⟨passed₂, typed⟩ := Cursor.entryType_part passed₁ e.type types between
  obtain ⟨passed₃, checked⟩ := Cursor.entryValidators_part passed₂ e.validators validators behind
  obtain ⟨passed₄, given⟩ := Cursor.entryDefault_part rest passed₃ isValue valued ends
  have still : Cursor.skipSeparators ⟨passed₄, feed :: rest⟩ = ⟨passed₄, feed :: rest⟩ := by
    simp [Cursor.skipSeparators, Cursor.skip, Cursor.skipFrom, Token.isWhitespace, Token.isPunct, Token.is,
      Token.isContinuation, ends]
  refine ⟨passed₄, (passed₄.head?.map Token.endLine).getD name.line, ?_⟩
  simp only [entry, first, withCursor, sized, typed, checked, given, still, Cursor.take?, Token.isRemark, ends]
  rfl

end Reader

namespace EntryText

/-- A run of tokens from which the entry is read, up to its line end. -/
def Tokens (e : EntryText) (ts : List Token) : Prop :=
  ∃ xs nl, IsValue (e.default.map ValueText.trimmed) xs ∧
    ts.map Token.lexeme = gapLexemes e.margin ++ (.name, e.name.text.toList) ::
      (e.specLexemes ++ (xs ++ [(.newline, nl)]))

/-- A run of tokens from which the entries are read one by one. -/
inductive AllTokens : List EntryText → List Token → Prop
  | nil : AllTokens [] []
  | cons {e : EntryText} {es : List EntryText} {ts us : List Token} : e.Tokens ts → AllTokens es us →
      AllTokens (e :: es) (ts ++ us)

end EntryText

theorem Token.white_of_lexemes {w : List Char} {ts : List Token} (read : ts.map lexeme = gapLexemes w) :
    ∀ t ∈ ts, t.isWhitespace = true := by
  rw [gapLexemes] at read
  split at read
  · obtain rfl := List.map_eq_nil_iff.mp read
    simp
  · obtain ⟨t, r, rfl, kind, -, rest⟩ := eq_cons_of_lexemes read
    obtain rfl := List.map_eq_nil_iff.mp rest
    simp [isWhitespace, kind]

theorem ListItem.docstrings_entries (read : List Entry) :
    docstrings (read.map fun e => .entry ⟨e.firstLine, e.lastLine, none⟩) = read.map fun _ => none := by
  have after (before : Option ListItem) (none : block? before = none) :
      docstringsAfter before (read.map fun e => .entry ⟨e.firstLine, e.lastLine, Option.none⟩) =
        read.map fun _ => Option.none := by
    induction read generalizing before with
    | nil => rfl
    | cons e read ih =>
      have below : docBelow ⟨e.firstLine, e.lastLine, Option.none⟩
          (read.map fun e => .entry ⟨e.firstLine, e.lastLine, Option.none⟩) = Option.none := by
        cases read <;> rfl
      simp only [List.map_cons, docstringsAfter, docAbove, none, below]
      rw [ih (some (.entry _)) rfl]
      rfl
  exact after none rfl

namespace Reader

theorem entriesFrom_entry {e : EntryText} {ts : List Token} (tokens : e.Tokens ts) (items : List ListItem)
    (entries : List Entry) (passed tail : List Token) (notes : List Note) :
    ∃ passed' first last, entriesFrom .properties false items entries ⟨⟨passed, ts ++ tail⟩, notes⟩ =
      entriesFrom .properties false (items ++ [.entry ⟨first, last, none⟩])
        (entries ++ [⟨e.name.text, first, last, e.spec, none⟩]) ⟨⟨passed', tail⟩, notes⟩ := by
  obtain ⟨xs, nl, isValue, read⟩ := tokens
  obtain ⟨gap, ts, rfl, margin, read⟩ := List.map_eq_append_iff.mp read
  obtain ⟨t, ts, rfl, kind, text, read⟩ := Token.eq_cons_of_lexemes read
  obtain ⟨spec, ts, rfl, specified, read⟩ := List.map_eq_append_iff.mp read
  obtain ⟨value, ts, rfl, valued, read⟩ := List.map_eq_append_iff.mp read
  obtain ⟨feed, ts, rfl, ends, -, read⟩ := Token.eq_cons_of_lexemes read
  obtain rfl := List.map_eq_nil_iff.mp read
  have start := Cursor.skipWhitespace_split (Token.white_of_lexemes margin)
    (show t.isWhitespace = false by simp [Token.isWhitespace, kind]) (by simp [kind]) passed
    (spec ++ (value ++ feed :: tail))
  rw [String.ofList_toList] at text
  obtain ⟨passed', last, known⟩ := entry_tokens e (Prod.ext kind text) specified isValue valued ends
    (gap.reverse ++ passed) tail notes
  have shape : gap ++ t :: (spec ++ (value ++ [feed])) ++ tail = gap ++ t :: (spec ++ (value ++ feed :: tail)) := by
    simp
  have still : Cursor.skipWhitespace ⟨passed', feed :: tail⟩ = ⟨passed', feed :: tail⟩ :=
    Cursor.skipWhitespace_blank words_nil ends passed' tail
  refine ⟨feed :: passed', t.line, last, ?_⟩
  rw [shape, entriesFrom_name (by rw [move, start]) .properties false items entries kind rfl known]
  exact entriesFrom_feed (by rw [move, still]) .properties false _ _ ends

/-- The entries of a block are read in order. -/
theorem entriesFrom_all {es : List EntryText} {ts : List Token} (tokens : EntryText.AllTokens es ts)
    {close : List Token} (ending : IsLine [(.keyword, "end")] close) (items : List ListItem)
    (entries : List Entry) (passed tail : List Token) (notes : List Note) :
    ∃ read passed' gap, entriesFrom .properties false items entries ⟨⟨passed, ts ++ (close ++ tail)⟩, notes⟩ =
        ((items ++ read.map fun e => .entry ⟨e.firstLine, e.lastLine, none⟩, entries ++ read),
          ⟨⟨passed', gap ++ tail⟩, notes⟩) ∧
      (read.map fun e => (e.name, e.spec)) = (es.map fun e => (e.name.text, e.spec)) ∧
      ∀ g ∈ gap, g.isSpacing = true := by
  induction tokens generalizing items entries passed with
  | nil =>
    obtain ⟨front, feed, rfl, read, ends⟩ := ending
    obtain ⟨passed', k, rest, here, word, blank⟩ :=
      Cursor.skipWhitespace_word read (by simp) passed (feed :: tail)
    refine ⟨[], k :: passed', rest ++ [feed], ?_, rfl, spacing_of_blank blank ends⟩
    have known := entriesFrom_end (r := ⟨⟨passed, front ++ feed :: tail⟩, notes⟩) (by rw [move, here])
      .properties false items entries (Token.isKeyword_of_segment word)
    simpa using known
  | @cons e es ts us first _ ih =>
    obtain ⟨passed₁, line, last, here⟩ := entriesFrom_entry first items entries passed (us ++ (close ++ tail)) notes
    obtain ⟨read, passed', gap, further, same, gaps⟩ := ih _ _ passed₁
    refine ⟨⟨e.name.text, line, last, e.spec, none⟩ :: read, passed', gap, ?_, by simp [same], gaps⟩
    rw [List.append_assoc, here, further]
    simp

/-- The entries of a block have no docstrings. -/
theorem entries_all {es : List EntryText} {ts : List Token} (tokens : EntryText.AllTokens es ts)
    {close : List Token} (ending : IsLine [(.keyword, "end")] close) (passed tail : List Token) (notes : List Note) :
    ∃ read passed' gap, entries .properties false ⟨⟨passed, ts ++ (close ++ tail)⟩, notes⟩ =
        (read, ⟨⟨passed', gap ++ tail⟩, notes⟩) ∧
      (read.map fun e => (e.name, e.spec)) = (es.map fun e => (e.name.text, e.spec)) ∧
      ∀ g ∈ gap, g.isSpacing = true := by
  obtain ⟨read, passed', gap, known, same, gaps⟩ := entriesFrom_all tokens ending [] [] passed tail notes
  refine ⟨read, passed', gap, ?_, same, gaps⟩
  have bare : ∀ e ∈ read, e.spec.doc = none := by
    intro e member
    have inside : (e.name, e.spec) ∈ es.map fun e => (e.name.text, e.spec) :=
      same ▸ List.mem_map_of_mem member
    obtain ⟨u, -, said⟩ := List.mem_map.mp inside
    rw [← (Prod.mk.inj said).2]
    rfl
  rw [entries, known]
  simp only [List.nil_append, ListItem.docstrings_entries]
  congr 1
  clear known same
  induction read with
  | nil => rfl
  | cons e read ih =>
    rw [List.forall_mem_cons] at bare
    rw [List.map_cons, List.zipWith_cons_cons, ih bare.2, ← bare.1]

end Reader

end MatlabOutline
