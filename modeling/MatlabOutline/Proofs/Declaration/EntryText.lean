import MatlabOutline.Proofs.Declaration.ValueText

/-!
Entries as they are written: a name, a size in parentheses, a type, validators in braces and a default
value. Main statement: an entry is read as the lexemes that it is made of, whatever stands below it
(`EntryText.lexemes_chars`).
-/

namespace MatlabOutline

/-- A word that is a name unless a line begins with it. -/
structure PlainWord where
  text : String
  identifier : isIdentifier text = true
  free : isReserved text = false

/-- An item of a list, with white space around it. -/
structure Spaced (α : Type) where
  before : List Char
  item : α
  after : List Char
  gapBefore : Lexer.IsGap before
  gapAfter : Lexer.IsGap after

inductive DimensionText
  /-- Digits for a number of 64 bits. -/
  | number (digits : List Char) (written : Numeral.isNonemptyDigits digits = true)
    (fits : Numeral.value digits < Numeral.wordLimit)
  | any

/-- A dotted name. What stands behind a dot may be a reserved word. -/
structure TypeText where
  head : PlainWord
  fields : List String
  identifiers : ∀ f ∈ fields, isIdentifier f = true

inductive ArgumentText
  | name (word : PlainWord)
  | integer (sign : Option Char) (digits : List Char) (signed : ∀ c ∈ sign, c = '+' ∨ c = '-')
    (written : Numeral.isNonemptyDigits digits = true)
  /-- A string in quotes, where a quote in the content is doubled. -/
  | quoted (quote : Char) (content : List Char) (mark : quote = '\'' ∨ quote = '"')
    (within : '\n' ∉ content)

/-- A function with arguments for it, if they are given. -/
structure ValidatorText where
  function : PlainWord
  arguments : Option (List (Spaced ArgumentText))

structure EntryText where
  margin : List Char
  gap : Lexer.IsGap margin
  name : PlainWord
  /-- The entry begins its line, where a block word would open a block. -/
  ordinary : isBlockWord name.text = false
  size : Option (List (Spaced DimensionText))
  sized : size ≠ some []
  type : Option TypeText
  validators : Option (List (Spaced ValidatorText))
  default : Option ValueText

section Writing

variable {α : Type}

def Spaced.chars (chars : α → List Char) (s : Spaced α) : List Char :=
  s.before ++ (chars s.item ++ s.after)

/-- The items with commas between them. -/
def listChars (chars : α → List Char) (items : List (Spaced α)) : List Char :=
  Text.joinWith ',' (items.map (Spaced.chars chars))

/-- The items of a list between brackets. -/
def bracketChars (opening closing : Char) (chars : α → List Char) (items : List (Spaced α)) : List Char :=
  opening :: (listChars chars items ++ [closing])

def DimensionText.chars : DimensionText → List Char
  | number digits _ _ => digits
  | any => [':']

def TypeText.chars (t : TypeText) : List Char :=
  t.head.text.toList ++ t.fields.flatMap fun f => '.' :: f.toList

def ArgumentText.chars : ArgumentText → List Char
  | name word => word.text.toList
  | integer sign digits _ _ => sign.toList ++ digits
  | quoted quote content _ _ => quote :: (Scan.doubled quote content ++ [quote])

def ValidatorText.chars (v : ValidatorText) : List Char :=
  v.function.text.toList ++
    match v.arguments with
    | some items => bracketChars '(' ')' ArgumentText.chars items
    | none => []

/-- A part that may be left out, behind a space. -/
def partChars (chars : α → List Char) : Option α → List Char
  | some part => ' ' :: chars part
  | none => []

namespace EntryText

/-- The entry up to its default value. -/
def specChars (e : EntryText) : List Char :=
  e.margin ++ (e.name.text.toList ++
    (partChars (bracketChars '(' ')' DimensionText.chars) e.size ++
      (partChars TypeText.chars e.type ++
        partChars (bracketChars '\x7b' '\x7d' ValidatorText.chars) e.validators)))

/-- The line of the entry, or its lines where the default value goes on. -/
def chars (e : EntryText) : List Char :=
  e.specChars ++ (partChars (fun v => '=' :: ' ' :: v.text.toList) e.default ++ ['\n'])

end EntryText

end Writing

theorem spelled_append (xs ys : List (TokenKind × List Char)) :
    spelled (xs ++ ys) = spelled xs ++ spelled ys := by
  simp [spelled]

/-- White space as a lexeme, if there is any. -/
def gapLexemes (w : List Char) : List (TokenKind × List Char) :=
  if w = [] then [] else [(.whitespace, w)]

@[simp] theorem spelled_gapLexemes (w : List Char) : spelled (gapLexemes w) = w := by
  by_cases empty : w = [] <;> simp [gapLexemes, empty]

section Lexemes

variable {α : Type}

def Spaced.lexemes (lexemes : α → List (TokenKind × List Char)) (s : Spaced α) :
    List (TokenKind × List Char) :=
  gapLexemes s.before ++ (lexemes s.item ++ gapLexemes s.after)

def listLexemes (lexemes : α → List (TokenKind × List Char)) (items : List (Spaced α)) :
    List (TokenKind × List Char) :=
  [(.punctuation, [','])].intercalate (items.map (Spaced.lexemes lexemes))

def bracketLexemes (opening closing : Char) (lexemes : α → List (TokenKind × List Char))
    (items : List (Spaced α)) : List (TokenKind × List Char) :=
  (.punctuation, [opening]) :: (listLexemes lexemes items ++ [(.punctuation, [closing])])

def DimensionText.lexemes : DimensionText → List (TokenKind × List Char)
  | number digits _ _ => [(.number, digits)]
  | any => [(.operator, [':'])]

def TypeText.lexemes (t : TypeText) : List (TokenKind × List Char) :=
  (.name, t.head.text.toList) ::
    t.fields.flatMap fun f => [(.punctuation, ['.']), (.name, f.toList)]

def ArgumentText.lexemes : ArgumentText → List (TokenKind × List Char)
  | name word => [(.name, word.text.toList)]
  | integer sign digits _ _ => sign.toList.map (fun c => (.operator, [c])) ++ [(.number, digits)]
  | quoted quote content _ _ => [(.string, quote :: (Scan.doubled quote content ++ [quote]))]

def ValidatorText.lexemes (v : ValidatorText) : List (TokenKind × List Char) :=
  (.name, v.function.text.toList) ::
    match v.arguments with
    | some items => bracketLexemes '(' ')' ArgumentText.lexemes items
    | none => []

def partLexemes (lexemes : α → List (TokenKind × List Char)) : Option α → List (TokenKind × List Char)
  | some part => (.whitespace, [' ']) :: lexemes part
  | none => []

end Lexemes

theorem head?_any_append_left {p : Char → Bool} {cs : List Char} (first : cs.head?.any p = true)
    (ds : List Char) : (cs ++ ds).head?.any p = true := by
  rcases cs with _ | ⟨c, cs⟩
  · simp at first
  · exact first

namespace Lexer

/-- Lexemes of an item of a list: they are read before whatever ends an item. -/
structure IsItem (cs : List Char) (xs : List (TokenKind × List Char)) : Prop where
  spells : spelled xs = cs
  solid : cs.head?.any (!isBlank ·) = true
  reads : ∀ {ys : List (TokenKind × List Char)} {r : List Char}, Reads ys r →
    (spelled ys ++ r).head?.any Scan.endsItem = true → Reads (xs ++ ys) r

/-- What ends an item of a list together with the white space behind it. -/
def endsSpaced (c : Char) : Bool :=
  c == ',' || c == ')' || c == '\x7d'

theorem endsItem_of_endsSpaced {c : Char} (ends : endsSpaced c = true) : Scan.endsItem c = true := by
  simp_all [endsSpaced, Scan.endsItem, or_assoc]

theorem not_isBlank_of_endsSpaced {c : Char} (ends : endsSpaced c = true) : isBlank c = false := by
  have marks : c = ',' ∨ c = ')' ∨ c = '\x7d' := by simpa [endsSpaced, or_assoc] using ends
  rcases marks with rfl | rfl | rfl <;> decide

theorem Reads.gap {ys : List (TokenKind × List Char)} {r : List Char} (rest : Reads ys r) {w : List Char}
    (gap : IsGap w) (solid : (spelled ys ++ r).head?.any (!isBlank ·) = true) :
    Reads (gapLexemes w ++ ys) r := by
  by_cases empty : w = []
  · simpa [gapLexemes, empty] using rest
  · rw [gapLexemes, if_neg empty]
    exact rest.space gap empty solid

section Lists

variable {α : Type} {chars : α → List Char} {lexemes : α → List (TokenKind × List Char)}
  (item : ∀ a, IsItem (chars a) (lexemes a))
include item

theorem Reads.spaced {ys : List (TokenKind × List Char)} {r : List Char} (rest : Reads ys r)
    (ends : (spelled ys ++ r).head?.any endsSpaced = true) (s : Spaced α) :
    Reads (s.lexemes lexemes ++ ys) r := by
  obtain ⟨d, first, mark⟩ : ∃ d, (spelled ys ++ r).head? = some d ∧ endsSpaced d = true := by
    simpa [Option.any_eq_true] using ends
  have behind : Reads (gapLexemes s.after ++ ys) r :=
    rest.gap s.gapAfter (by simp [first, not_isBlank_of_endsSpaced mark])
  have ended : (spelled (gapLexemes s.after ++ ys) ++ r).head?.any Scan.endsItem = true := by
    rw [spelled_append, spelled_gapLexemes, List.append_assoc]
    rcases cut : s.after with _ | ⟨e, w⟩
    · simp only [List.nil_append, first, Option.any_some, endsItem_of_endsSpaced mark]
    · have blank := (s.gapAfter e (by simp [cut])).1
      simp [Scan.endsItem, blank]
  have solid : (spelled (lexemes s.item ++ (gapLexemes s.after ++ ys)) ++ r).head?.any (!isBlank ·) = true := by
    rw [spelled_append, (item s.item).spells, List.append_assoc]
    exact head?_any_append_left (item s.item).solid _
  have whole := ((item s.item).reads behind ended).gap s.gapBefore solid
  simpa only [Spaced.lexemes, List.append_assoc] using whole

theorem Reads.list {ys : List (TokenKind × List Char)} {r : List Char} (rest : Reads ys r)
    (ends : (spelled ys ++ r).head?.any endsSpaced = true) (items : List (Spaced α)) :
    Reads (listLexemes lexemes items ++ ys) r := by
  rcases items with _ | ⟨s, items⟩
  · exact rest
  induction items generalizing s with
  | nil => simpa [listLexemes] using rest.spaced item ends s
  | cons t items ih =>
    have further := (ih t).mark (c := ',') (.inr (.inr rfl))
    have whole := further.spaced item (by simp [endsSpaced]) s
    simpa [listLexemes] using whole

theorem spelled_listLexemes (items : List (Spaced α)) :
    spelled (listLexemes lexemes items) = listChars chars items := by
  have one (s : Spaced α) : spelled (s.lexemes lexemes) = s.chars chars := by
    simp [Spaced.lexemes, Spaced.chars, spelled_append, (item s.item).spells]
  rcases items with _ | ⟨s, items⟩
  · rfl
  induction items generalizing s with
  | nil => simp [listLexemes, listChars, Text.joinWith, one]
  | cons t items ih =>
    have further := ih t
    simp only [listLexemes, listChars, Text.joinWith, List.map_cons, List.intercalate_cons_cons,
      spelled_append, one] at further ⊢
    rw [further]
    rfl

theorem spelled_bracketLexemes (opening closing : Char) (items : List (Spaced α)) :
    spelled (bracketLexemes opening closing lexemes items) = bracketChars opening closing chars items := by
  simp [bracketLexemes, bracketChars, spelled_append, spelled_listLexemes item]

theorem Reads.bracket {ys : List (TokenKind × List Char)} {r : List Char} (rest : Reads ys r)
    (quote : (spelled ys ++ r).head? ≠ some '\'') {opening closing : Char}
    (pair : opening = '(' ∧ closing = ')' ∨ opening = '\x7b' ∧ closing = '\x7d') (items : List (Spaced α)) :
    Reads (bracketLexemes opening closing lexemes items ++ ys) r := by
  have closes : closing = ')' ∨ closing = '\x7d' := pair.imp And.right And.right
  have ends : endsSpaced closing = true := by rcases closes with rfl | rfl <;> rfl
  have listed := (rest.close closes quote).list item (by simpa using ends) items
  have opened := listed.mark (c := opening) (by rcases pair with ⟨rfl, -⟩ | ⟨rfl, -⟩ <;> simp)
  simpa [bracketLexemes] using opened

end Lists

end Lexer

namespace PlainWord

variable (w : PlainWord)

theorem isIdentifierChars : isIdentifierChars w.text.toList = true :=
  w.identifier

theorem not_isReserved : isReserved (String.ofList w.text.toList) = false := by
  rw [String.ofList_toList, w.free]

end PlainWord

theorem solid_of_identifier {w : List Char} (word : isIdentifierChars w = true) :
    w.head?.any (!isBlank ·) = true := by
  rcases w with _ | ⟨c, w⟩
  · simp [isIdentifierChars] at word
  · rw [isIdentifierChars, Bool.and_eq_true] at word
    simp [not_isBlank_of_isIdentRest c (isIdentRest_of_isIdentStart c word.1)]

open Lexer Scan

/-- What ends an item ends a word. -/
theorem ends_word {z : List Char} (ends : z.head?.any endsItem = true) :
    z.head?.any isIdentRest = false ∧ z.head? ≠ some '\'' := by
  rcases z with _ | ⟨d, z⟩
  · simp at ends
  have ends : endsItem d = true := by simpa using ends
  exact ⟨by simpa using not_isIdentRest_of_endsItem ends, by simpa using ne_of_endsItem ends (by decide)⟩

theorem solid_of_digits {ds : List Char} (written : Numeral.isNonemptyDigits ds = true) :
    ds.head?.any (!isBlank ·) = true := by
  rcases ds with _ | ⟨d, ds⟩
  · simp [Numeral.isNonemptyDigits] at written
  · have digit : d.isDigit = true := by
      simp only [Numeral.isNonemptyDigits, List.all_cons, Bool.and_eq_true] at written
      exact written.2.1
    have ident : isIdentRest d = true := by simp [isIdentRest, Char.isAlphanum, digit]
    simp [not_isBlank_of_isIdentRest d ident]

theorem DimensionText.isItem (d : DimensionText) : IsItem d.chars d.lexemes := by
  cases d with
  | number ds written fits =>
    exact ⟨by simp [lexemes, chars], solid_of_digits written, fun rest ends => rest.number written ends⟩
  | any => exact ⟨rfl, rfl, fun rest _ => rest.sign (.inr (.inr rfl))⟩

/-- A dotted name is read before whatever ends a word. -/
theorem TypeText.reads (t : TypeText) {ys : List (TokenKind × List Char)} {r : List Char} (rest : Reads ys r)
    (stop : (spelled ys ++ r).head?.any isIdentRest = false) (quote : (spelled ys ++ r).head? ≠ some '\'') :
    Reads (t.lexemes ++ ys) r := by
  obtain ⟨w, fields, identifiers⟩ := t
  have further : Reads ((fields.flatMap fun f => [(.punctuation, ['.']), (.name, f.toList)]) ++ ys) r ∧
      (spelled ((fields.flatMap fun f => [(.punctuation, ['.']), (.name, f.toList)]) ++ ys) ++ r).head?.any
        isIdentRest = false ∧
      (spelled ((fields.flatMap fun f => [(.punctuation, ['.']), (.name, f.toList)]) ++ ys) ++ r).head? ≠
        some '\'' := by
    induction fields with
    | nil => exact ⟨rest, stop, quote⟩
    | cons f fields ih =>
      rw [List.forall_mem_cons] at identifiers
      obtain ⟨more, stop, quote⟩ := ih identifiers.2
      exact ⟨more.field identifiers.1 stop quote, by simp; decide, by simp⟩
  exact further.1.word w.isIdentifierChars w.not_isReserved further.2.1 further.2.2

@[simp] theorem TypeText.spelled_lexemes (t : TypeText) : spelled t.lexemes = t.chars := by
  have fields (fields : List String) :
      spelled (fields.flatMap fun f => [(.punctuation, ['.']), (.name, f.toList)]) =
        fields.flatMap fun f => '.' :: f.toList := by
    induction fields with
    | nil => rfl
    | cons f fields ih => simp [ih]
  simp only [lexemes, chars, spelled_cons, fields]

theorem TypeText.isItem (t : TypeText) : IsItem t.chars t.lexemes where
  spells := t.spelled_lexemes
  solid := head?_any_append_left (solid_of_identifier t.head.identifier) _
  reads rest ends := t.reads rest (ends_word ends).1 (ends_word ends).2

theorem ArgumentText.isItem (a : ArgumentText) : IsItem a.chars a.lexemes := by
  cases a with
  | name w =>
    refine ⟨by simp [lexemes, chars], solid_of_identifier w.identifier, fun rest ends => ?_⟩
    exact rest.word w.isIdentifierChars w.not_isReserved (ends_word ends).1 (ends_word ends).2
  | integer sign ds signed written =>
    rcases sign with _ | c
    · exact ⟨by simp [lexemes, chars], solid_of_digits written, fun rest ends => rest.number written ends⟩
    · have cases : c = '+' ∨ c = '-' := signed c rfl
      refine ⟨by simp [lexemes, chars], ?_, fun rest ends => (rest.number written ends).sign ?_⟩
      · rcases cases with rfl | rfl <;> rfl
      · rcases cases with rfl | rfl <;> simp
  | quoted quote content mark within =>
    refine ⟨by simp [lexemes, chars], ?_, fun rest ends => rest.string mark within ends⟩
    rcases mark with rfl | rfl <;> rfl

theorem ValidatorText.isItem (v : ValidatorText) : IsItem v.chars v.lexemes := by
  obtain ⟨w, arguments⟩ := v
  have head := head?_any_append_left (solid_of_identifier w.identifier)
  cases arguments with
  | none =>
    refine ⟨by simp [lexemes, chars], head _, fun rest ends => ?_⟩
    exact rest.word w.isIdentifierChars w.not_isReserved (ends_word ends).1 (ends_word ends).2
  | some items =>
    refine ⟨?_, head _, fun {ys r} rest ends => ?_⟩
    · simp [lexemes, chars, spelled_bracketLexemes ArgumentText.isItem]
    · have opened := rest.bracket ArgumentText.isItem (ends_word ends).2 (.inl ⟨rfl, rfl⟩) items
      exact opened.word w.isIdentifierChars w.not_isReserved (by simp [bracketLexemes]; decide)
        (by simp [bracketLexemes])

/-- A space or a line end, which stands behind every part of an entry. -/
def startsPart (c : Char) : Bool :=
  c == ' ' || c == '\n'

theorem endsItem_of_startsPart {z : List Char} (starts : z.head?.any startsPart = true) :
    z.head?.any endsItem = true := by
  rcases z with _ | ⟨d, z⟩
  · simp at starts
  · have cases : d = ' ' ∨ d = '\n' := by simpa [startsPart] using starts
    rcases cases with rfl | rfl <;> simp [endsItem, isBlank]

section Parts

variable {α : Type} {lexemes : α → List (TokenKind × List Char)} {ys : List (TokenKind × List Char)}
  {r : List Char}

variable (lexemes) in
theorem starts_part (starts : (spelled ys ++ r).head?.any startsPart = true) (part : Option α) :
    (spelled (partLexemes lexemes part ++ ys) ++ r).head?.any startsPart = true := by
  cases part with
  | none => exact starts
  | some part => simp [partLexemes, startsPart]

theorem Lexer.Reads.part {part : Option α} (rest : Reads ys r) (inner : ∀ a, Reads (lexemes a ++ ys) r)
    (solid : ∀ a, (spelled (lexemes a)).head?.any (!isBlank ·) = true) :
    Reads (partLexemes lexemes part ++ ys) r := by
  cases part with
  | none => exact rest
  | some a =>
    refine (inner a).space ?_ (by simp) ?_
    · simp [IsGap, isBlank]
    · rw [spelled_append, List.append_assoc]
      exact head?_any_append_left (solid a) _

end Parts

namespace EntryText

variable (e : EntryText)

/-- The lexemes between the name and the default value. -/
def specLexemes : List (TokenKind × List Char) :=
  partLexemes (bracketLexemes '(' ')' DimensionText.lexemes) e.size ++
    (partLexemes TypeText.lexemes e.type ++
      partLexemes (bracketLexemes '\x7b' '\x7d' ValidatorText.lexemes) e.validators)

theorem reads_spec {r : List Char} (starts : r.head?.any startsPart = true) :
    Reads e.specLexemes r ∧ (spelled e.specLexemes ++ r).head?.any startsPart = true := by
  have bracketed {α : Type} {chars : α → List Char} {lexemes : α → List (TokenKind × List Char)}
      (item : ∀ a, IsItem (chars a) (lexemes a)) {ys : List (TokenKind × List Char)} (rest : Reads ys r)
      (starts : (spelled ys ++ r).head?.any startsPart = true) {opening closing : Char}
      (pair : opening = '(' ∧ closing = ')' ∨ opening = '\x7b' ∧ closing = '\x7d')
      (part : Option (List (Spaced α))) :
      Reads (partLexemes (bracketLexemes opening closing lexemes) part ++ ys) r := by
    refine rest.part (fun items => rest.bracket item ?_ pair items) fun items => ?_
    · exact (ends_word (endsItem_of_startsPart starts)).2
    · rcases pair with ⟨rfl, -⟩ | ⟨rfl, -⟩ <;> simp [bracketLexemes] <;> decide
  have checks := bracketed ValidatorText.isItem (.nil r) starts (.inr ⟨rfl, rfl⟩) e.validators
  have behind := starts_part (bracketLexemes '\x7b' '\x7d' ValidatorText.lexemes)
    (show (spelled [] ++ r).head?.any startsPart = true from starts) e.validators
  have type := @Reads.part _ _ _ _ e.type checks
    (fun t => t.isItem.reads checks (endsItem_of_startsPart behind)) fun t => t.isItem.spells ▸ t.isItem.solid
  have between := starts_part TypeText.lexemes behind e.type
  have size := bracketed DimensionText.isItem type between (.inl ⟨rfl, rfl⟩) e.size
  have first := starts_part (bracketLexemes '(' ')' DimensionText.lexemes) between e.size
  rw [List.append_nil] at size first
  exact ⟨size, first⟩

theorem chars_eq : e.specChars = e.margin ++ (e.name.text.toList ++ spelled e.specLexemes) := by
  have part {α : Type} {chars : α → List Char} {lexemes : α → List (TokenKind × List Char)}
      (spells : ∀ a, spelled (lexemes a) = chars a) (part : Option α) :
      spelled (partLexemes lexemes part) = partChars chars part := by
    cases part with
    | none => rfl
    | some a => simp [partLexemes, partChars, spells]
  rw [specChars, specLexemes, spelled_append, spelled_append, part fun t : TypeText => t.isItem.spells,
    part (spelled_bracketLexemes DimensionText.isItem _ _),
    part (spelled_bracketLexemes ValidatorText.isItem _ _)]

/-- The margin and the name of an entry are read at the beginning of a line. -/
theorem lexemes_name {z : List Char} (ends : z.head?.any endsItem = true) :
    lexemes .initial (e.margin ++ (e.name.text.toList ++ z)) =
      gapLexemes e.margin ++ (.name, e.name.text.toList) :: lexemes {} z := by
  obtain ⟨stop, quote⟩ := ends_word ends
  have word := e.name.isIdentifierChars
  have free := e.name.not_isReserved
  have ordinary : isBlockWord (String.ofList e.name.text.toList) = false := by
    rw [String.ofList_toList, e.ordinary]
  rcases name : e.name.text.toList with _ | ⟨c, cs⟩
  · simp [name, MatlabOutline.isIdentifierChars] at word
  rw [name] at word free ordinary
  have here : lexemes .initial (c :: (cs ++ z)) = (.name, c :: cs) :: lexemes {} z := by
    rw [lexemes_of_step (step_word rfl (.inr ordinary) rfl word free stop), ← lexemes_operand quote]
    rfl
  have solid : isBlank c = false := by simpa using solid_of_identifier word
  rcases margin : e.margin with _ | ⟨d, w⟩
  · simpa [gapLexemes] using here
  · have gap : IsGap (d :: w) := margin ▸ e.gap
    have apart : NoBreak (d :: w) (c :: (cs ++ z)) := by
      rintro - head
      obtain rfl : c = '\n' := by simpa using head
      exact absurd solid (by decide)
    have stays : spaces (c :: (cs ++ z)) = ⟨[], c :: (cs ++ z)⟩ := spaces_of_solid solid _
    have space := @step_space .initial _ _ (gap d (by simp)).1 (going_of_gap gap apart)
    rw [spaces_gap gap.tail apart.tail, stays] at space
    simp only [List.cons_append, Split.prepend, List.append_nil] at space ⊢
    rw [lexemes_of_step space, show LexState.initial.blank = .initial from rfl, here]
    simp [gapLexemes]

/-- An entry is read as the lexemes that it is made of, whatever stands below it. -/
theorem lexemes_chars (e : EntryText) :
    ∃ xs nl, IsValue (e.default.map ValueText.trimmed) xs ∧
      ∀ t, lexemes .initial (e.chars ++ t) =
        gapLexemes e.margin ++ (.name, e.name.text.toList) ::
          (e.specLexemes ++ (xs ++ (.newline, nl) :: lexemes .initial t)) := by
  obtain ⟨xs, nl, value, rest⟩ : ∃ xs nl, IsValue (e.default.map ValueText.trimmed) xs ∧
      ∀ t, lexemes {} (partChars (fun v => '=' :: ' ' :: v.text.toList) e.default ++ '\n' :: t) =
        xs ++ (.newline, nl) :: lexemes .initial t := by
    cases e.default with
    | none => exact ⟨[], ['\n'], .none, fun t => by rw [partChars, List.nil_append, lexemes]; rfl⟩
    | some v => exact v.lexemes_marked
  refine ⟨xs, nl, value, fun t => ?_⟩
  generalize behind : partChars (fun v : ValueText => '=' :: ' ' :: v.text.toList) e.default ++ '\n' :: t = r
  have starts : r.head?.any startsPart = true := by
    rw [← behind]
    cases e.default <;> rfl
  obtain ⟨spec, first⟩ := e.reads_spec starts
  have whole : e.chars ++ t = e.margin ++ (e.name.text.toList ++ (spelled e.specLexemes ++ r)) := by
    simp [EntryText.chars, e.chars_eq, ← behind]
  rw [whole, e.lexemes_name (endsItem_of_startsPart first), spec, ← behind, rest]

end EntryText

end MatlabOutline
