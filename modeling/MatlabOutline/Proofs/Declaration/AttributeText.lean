import MatlabOutline.Attribute.Vocabulary
import MatlabOutline.Proofs.Declaration.EntryText

/-!
Attribute lists as they are written: names in any letter case, alone or with the text of a value. Main
statement: the attributes of a list are read as the lexemes that they are made of (`AttributeText.isItem`).
-/

namespace MatlabOutline

open Lexer Scan

/-- A dotted name, or one behind a `?`. -/
structure NameText where
  asks : Bool
  name : TypeText

namespace NameText

def chars (n : NameText) : List Char :=
  (if n.asks then ['?'] else []) ++ n.name.chars

def lexemes (n : NameText) : List (TokenKind × List Char) :=
  (if n.asks then [(.operator, ['?'])] else []) ++ n.name.lexemes

def text (n : NameText) : String :=
  String.ofList n.chars

end NameText

/-- The value of an attribute with a text of its own. -/
inductive AttrValueText
  | bool (b : Bool)
  | string (s : String) (within : '\n' ∉ s.toList)
  | list (items : List NameText)
  | name (n : NameText) (other : n.text ≠ "true" ∧ n.text ≠ "false")

def AttrValueText.value : AttrValueText → AttrValue
  | bool b => .bool b
  | string s _ => .string s
  | list items => .list (items.map NameText.text)
  | name n _ => .name n.text

/-- An attribute of a vocabulary in any letter case. Without a value it is true, and behind a `~` or `!`
its logical value is the other one. -/
structure AttributeText (v : Vocabulary) where
  name : String
  kind : AttrKind
  known : (name, kind) ∈ v.attributes
  spelling : String
  cased : spelling.toList.map Char.toLower = name.toList.map Char.toLower
  sign : Option Char := none
  signed : ∀ c ∈ sign, c = '~' ∨ c = '!' := by simp
  setting : Option AttrValueText

/-- What an attribute is set to by what stands behind its name, and a sign before it. -/
def AttrValueText.setting (negated : Bool) : Option AttrValueText → AttrValue
  | some value => if negated then Cursor.negate value.value else value.value
  | none => .bool !negated

namespace AttributeText

variable {v : Vocabulary} (a : AttributeText v)

def text : String :=
  String.ofList a.sign.toList ++ a.spelling ++
    match a.setting with
    | some value => " = " ++ value.value.display
    | none => ""

/-- The value that the attribute is set to. -/
def value : AttrValue :=
  AttrValueText.setting a.sign.isSome a.setting

/-- The warning that the kind of the attribute does not accept its value, if it does not. -/
def warning (line : Nat) : Option Note :=
  if a.kind.accepts a.value then none else some (.warning line (.attributeKind a.name a.kind a.value))

end AttributeText

/-- A list of attributes in parentheses. -/
def attributesText {v : Vocabulary} (items : List (AttributeText v)) : String :=
  "(" ++ ", ".intercalate (items.map AttributeText.text) ++ ")"

namespace Vocabulary

/-- Attributes are named by identifiers that are told apart, and not reserved, in any letter case. -/
structure Regular (v : Vocabulary) : Prop where
  identifiers : ∀ a ∈ v.attributes, isIdentifier a.1 = true
  free : ∀ a ∈ v.attributes, ∀ w ∈ reservedWords, a.1.toList.map Char.toLower ≠ w.toList
  apart : (v.attributes.map fun a => a.1.toList.map Char.toLower).Nodup

theorem regular_of_mem_all {v : Vocabulary} (known : v ∈ all) : v.Regular := by
  have all : ∀ v ∈ all, (∀ a ∈ v.attributes, isIdentifier a.1 = true) ∧
      (∀ a ∈ v.attributes, ∀ w ∈ reservedWords, a.1.toList.map Char.toLower ≠ w.toList) ∧
      (v.attributes.map fun a => a.1.toList.map Char.toLower).Nodup := by
    decide +kernel
  obtain ⟨identifiers, free, apart⟩ := all v known
  exact ⟨identifiers, free, apart⟩

end Vocabulary

section Letters

/-- Only letters have a small letter. -/
theorem isAlpha_or_toLower_eq (c : Char) : (c.isAlpha = true ∧ c.toLower.isAlpha = true) ∨ c.toLower = c := by
  by_cases upper : c.val ≥ 'A'.val ∧ c.val ≤ 'Z'.val
  · have bounds : 65 ≤ c.val.toNat ∧ c.val.toNat ≤ 90 := upper
    have small : c.toLower.val = c.val + 32 := congrArg Char.val (dif_pos upper)
    have shifted : c.toLower.val.toNat = c.val.toNat + 32 := by
      rw [small, UInt32.toNat_add, show (32 : UInt32).toNat = 32 from rfl]
      exact Nat.mod_eq_of_lt (by omega)
    have lower : 97 ≤ c.toLower.val.toNat ∧ c.toLower.val.toNat ≤ 122 := by omega
    have isUpper : c.isUpper = true := decide_eq_true upper
    have isLower : c.toLower.isLower = true :=
      Bool.and_eq_true_iff.mpr ⟨decide_eq_true lower.1, decide_eq_true lower.2⟩
    exact .inl ⟨Bool.or_eq_true_iff.mpr (.inl isUpper), Bool.or_eq_true_iff.mpr (.inr isLower)⟩
  · exact .inr (dif_neg upper)

theorem isIdentStart_toLower (c : Char) : isIdentStart c.toLower = isIdentStart c := by
  rcases isAlpha_or_toLower_eq c with ⟨alpha, letter⟩ | same
  · simp [isIdentStart, alpha, letter]
  · rw [same]

theorem isIdentRest_toLower (c : Char) : isIdentRest c.toLower = isIdentRest c := by
  rcases isAlpha_or_toLower_eq c with ⟨alpha, letter⟩ | same
  · simp [isIdentRest, Char.isAlphanum, letter, alpha]
  · rw [same]

/-- A name is an identifier in any letter case. -/
theorem isIdentifierChars_map_toLower (cs : List Char) :
    isIdentifierChars (cs.map Char.toLower) = isIdentifierChars cs := by
  cases cs with
  | nil => rfl
  | cons c cs => simp [isIdentifierChars, isIdentStart_toLower, Function.comp_def, isIdentRest_toLower]

/-- Reserved words have small letters only. -/
theorem isReserved_of_map_toLower {s t : String} (cased : s.toList.map Char.toLower = t.toList.map Char.toLower)
    (free : ∀ w ∈ reservedWords, t.toList.map Char.toLower ≠ w.toList) : isReserved s = false := by
  rw [Bool.eq_false_iff]
  intro reserved
  have member : s ∈ reservedWords := by simpa [isReserved] using reserved
  have small : ∀ w ∈ reservedWords, w.toList.map Char.toLower = w.toList := by decide +kernel
  exact free s member (cased ▸ small s member)

end Letters

/-- Items behind commas with a space. -/
def Spaced.listed {α : Type} : List α → List (Spaced α)
  | [] => []
  | a :: items =>
    ⟨[], a, [], by simp [IsGap], by simp [IsGap]⟩ ::
      items.map fun b => ⟨[' '], b, [], by simp [IsGap, isBlank], by simp [IsGap]⟩

theorem map_item_listed {α : Type} (items : List α) : (Spaced.listed items).map Spaced.item = items := by
  cases items <;> simp [Spaced.listed, Function.comp_def]

theorem listChars_listed {α : Type} {chars : α → List Char} {text : α → String}
    (same : ∀ a, (text a).toList = chars a) (items : List α) :
    listChars chars (Spaced.listed items) = (", ".intercalate (items.map text)).toList := by
  have join (p : List Char) (ps : List (List Char)) :
      [','].intercalate (p :: ps.map (' ' :: ·)) = ", ".toList.intercalate (p :: ps) := by
    induction ps generalizing p with
    | nil => rfl
    | cons q ps ih =>
      have further := ih q
      cases ps <;> simp_all [List.intercalate]
  rw [String.toList_intercalate, listChars, Text.joinWith]
  cases items with
  | nil => rfl
  | cons a items =>
    have whole := join (chars a) (items.map chars)
    simpa [Spaced.listed, Spaced.chars, Function.comp_def, same] using whole

namespace Lexer

/-- A sign that no `=` follows. -/
theorem Reads.query {xs : List (TokenKind × List Char)} {r : List Char} (rest : Reads xs r) {c : Char}
    (mark : c = '~' ∨ c = '!' ∨ c = '?') (other : (spelled xs ++ r).head? ≠ some '=') :
    Reads ((.operator, [c]) :: xs) r := by
  have single (second : Option Char) (only : second = some '=' ∨ second = none) :
      optional second (spelled xs ++ r) = ⟨[], spelled xs ++ r⟩ := by
    generalize spelled xs ++ r = z at other
    rcases z with _ | ⟨d, z⟩
    · rfl
    · have away : second ≠ some d := by
        rcases only with rfl | rfl
        · simpa [eq_comm] using other
        · simp
      rw [optional, if_neg away]
  refine rest.cons {} ?_ rfl
  rcases mark with rfl | rfl | rfl
  · exact Eq.trans rfl (congrArg (LexStep.mk .operator · {}) (single (some '=') (.inl rfl)))
  · exact Eq.trans rfl (congrArg (LexStep.mk .operator · {}) (single none (.inr rfl)))
  · exact Eq.trans rfl (congrArg (LexStep.mk .operator · {}) (single none (.inr rfl)))

end Lexer

theorem head?_ne_of_identifier {w : List Char} (word : isIdentifierChars w = true) {d : Char}
    (symbol : isIdentRest d = false) (z : List Char) : (w ++ z).head? ≠ some d := by
  rcases w with _ | ⟨c, cs⟩
  · simp [isIdentifierChars] at word
  · rw [isIdentifierChars, Bool.and_eq_true] at word
    simpa using ne_of_isIdentRest (isIdentRest_of_isIdentStart c word.1) symbol

theorem NameText.isItem (n : NameText) : IsItem n.chars n.lexemes := by
  obtain ⟨asks, name⟩ := n
  have item := name.isItem
  cases asks with
  | false => exact item
  | true =>
    refine ⟨congrArg ('?' :: ·) item.spells, rfl, fun {ys r} rest ends => ?_⟩
    refine (item.reads rest ends).query (by simp) ?_
    rw [spelled_append, item.spells, List.append_assoc, TypeText.chars, List.append_assoc]
    exact head?_ne_of_identifier name.head.isIdentifierChars (by decide) _

namespace AttrValueText

def lexemes : AttrValueText → List (TokenKind × List Char)
  | bool b => [(.name, (AttrValue.display (.bool b)).toList)]
  | string s _ => [(.string, '\'' :: (doubled '\'' s.toList ++ ['\'']))]
  | list items => bracketLexemes '\x7b' '\x7d' NameText.lexemes (Spaced.listed items)
  | name n _ => n.lexemes

/-- The value behind its mark. -/
def assigned (value : AttrValueText) : List (TokenKind × List Char) :=
  (.operator, ['=']) :: (.whitespace, [' ']) :: value.lexemes

theorem isItem (value : AttrValueText) : IsItem value.value.display.toList value.lexemes := by
  cases value with
  | bool b =>
    refine ⟨by simp [lexemes, AttrValueText.value], by cases b <;> rfl, fun rest ends => ?_⟩
    obtain ⟨stop, quote⟩ := ends_word ends
    cases b
    · exact rest.word (w := "false".toList) (by decide) (by decide) stop quote
    · exact rest.word (w := "true".toList) (by decide) (by decide) stop quote
  | string s within =>
    refine ⟨?_, ?_, fun rest ends => rest.string (.inl rfl) within ends⟩
    · simp [lexemes, AttrValueText.value, AttrValue.display, AttrValue.doubleQuotes, doubled]
    · simp [AttrValueText.value, AttrValue.display]
      decide
  | list items =>
    refine ⟨?_, ?_, fun rest ends => rest.bracket NameText.isItem (ends_word ends).2 (.inr ⟨rfl, rfl⟩) _⟩
    · have named (n : NameText) : n.text.toList = n.chars := String.toList_ofList
      rw [lexemes, spelled_bracketLexemes NameText.isItem, bracketChars, listChars_listed named]
      simp [AttrValueText.value, AttrValue.display]
    · simp [AttrValueText.value, AttrValue.display]
      decide
  | name n other =>
    have item := n.isItem
    rw [AttrValueText.value, AttrValue.display, NameText.text, String.toList_ofList]
    exact item

end AttrValueText

namespace AttributeText

variable {v : Vocabulary}

def chars (a : AttributeText v) : List Char :=
  a.text.toList

/-- The sign and the name, and a value behind `=`. -/
def lexemes (a : AttributeText v) : List (TokenKind × List Char) :=
  a.sign.toList.map (fun c => (.operator, [c])) ++ (.name, a.spelling.toList) ::
    partLexemes AttrValueText.assigned a.setting

theorem isIdentifierChars (regular : v.Regular) (a : AttributeText v) :
    isIdentifierChars a.spelling.toList = true := by
  rw [← isIdentifierChars_map_toLower, a.cased, isIdentifierChars_map_toLower]
  exact regular.identifiers _ a.known

theorem not_isReserved (regular : v.Regular) (a : AttributeText v) : isReserved a.spelling = false :=
  isReserved_of_map_toLower a.cased (regular.free _ a.known)

/-- An attribute is read as its lexemes before whatever ends an item of a list. -/
theorem isItem (regular : v.Regular) (a : AttributeText v) : IsItem a.chars a.lexemes := by
  have word := a.isIdentifierChars regular
  have free := a.not_isReserved regular
  obtain ⟨name, kind, known, spelling, cased, sign, signed, setting⟩ := a
  simp only at word free signed
  have solid := solid_of_identifier word
  refine ⟨?_, ?_, fun {ys r} rest ends => ?_⟩
  · cases sign <;> cases setting with
    | none => simp [lexemes, chars, text, partLexemes]
    | some value => simp [lexemes, chars, text, partLexemes, AttrValueText.assigned, ← value.isItem.spells]
  · cases sign with
    | none => simpa [chars, text] using head?_any_append_left solid _
    | some c => rcases signed c rfl with rfl | rfl <;> simp [chars, text] <;> decide
  · have space := IsGap.space
    have set : Reads (partLexemes AttrValueText.assigned setting ++ ys) r ∧
        (spelled (partLexemes AttrValueText.assigned setting ++ ys) ++ r).head?.any endsItem = true := by
      cases setting with
      | none => exact ⟨rest, ends⟩
      | some value =>
        have item := value.isItem
        have solid : (spelled (value.lexemes ++ ys) ++ r).head?.any (!isBlank ·) = true := by
          rw [spelled_append, item.spells, List.append_assoc]
          exact head?_any_append_left item.solid _
        have assigned := ((item.reads rest ends).space space (by simp) solid).equals (by simp)
        exact ⟨assigned.space space (by simp) (by simp; decide), by simp [partLexemes, endsItem, isBlank]⟩
    obtain ⟨stop, quote⟩ := ends_word set.2
    have named := set.1.word word (by rwa [String.ofList_toList]) stop quote
    cases sign with
    | none => exact named
    | some c =>
      refine named.query ((signed c rfl).imp_right .inl) ?_
      rw [spelled_cons, List.append_assoc]
      exact head?_ne_of_identifier word (by decide) _

end AttributeText

/-- The kinds of lexemes of which lists in a line are made. -/
def TokenKind.isInline : TokenKind → Bool
  | newline | comment | keyword | nameFunction => false
  | _ => true

theorem TokenKind.ne_of_isInline {kind : TokenKind} (inline : kind.isInline = true) :
    kind ≠ .newline ∧ kind ≠ .comment ∧ kind ≠ .keyword ∧ kind ≠ .nameFunction := by
  cases kind <;> simp_all [isInline]

section Inline

variable {α : Type} {lexemes : α → List (TokenKind × List Char)}
  (item : ∀ a, ∀ x ∈ lexemes a, x.1.isInline = true)

theorem inline_gap (w : List Char) : ∀ x ∈ gapLexemes w, x.1.isInline = true := by
  rw [gapLexemes]
  split <;> simp [TokenKind.isInline]

include item

theorem inline_list (items : List (Spaced α)) : ∀ x ∈ listLexemes lexemes items, x.1.isInline = true := by
  have spaced (s : Spaced α) : ∀ x ∈ s.lexemes lexemes, x.1.isInline = true := by
    simp only [Spaced.lexemes, List.forall_mem_append]
    exact ⟨inline_gap _, item _, inline_gap _⟩
  rcases items with _ | ⟨s, items⟩
  · simp [listLexemes]
  induction items generalizing s with
  | nil => simpa [listLexemes] using spaced s
  | cons t items ih =>
    have further := ih t
    simp only [listLexemes, List.map_cons, List.intercalate_cons_cons, List.forall_mem_append] at further ⊢
    exact ⟨⟨spaced s, by simp [TokenKind.isInline]⟩, further⟩

theorem inline_bracket (opening closing : Char) (items : List (Spaced α)) :
    ∀ x ∈ bracketLexemes opening closing lexemes items, x.1.isInline = true := by
  simp only [bracketLexemes, List.forall_mem_cons, List.forall_mem_append]
  exact ⟨rfl, inline_list item items, rfl, by simp⟩

end Inline

theorem TypeText.inline (t : TypeText) : ∀ x ∈ t.lexemes, x.1.isInline = true := by
  rw [lexemes, List.forall_mem_cons]
  refine ⟨rfl, fun x member => ?_⟩
  obtain ⟨f, -, field⟩ := List.mem_flatMap.mp member
  rcases List.mem_pair.mp field with rfl | rfl <;> rfl

theorem NameText.inline (n : NameText) : ∀ x ∈ n.lexemes, x.1.isInline = true := by
  rw [lexemes, List.forall_mem_append]
  refine ⟨?_, n.name.inline⟩
  split <;> simp [TokenKind.isInline]

theorem AttributeText.inline {v : Vocabulary} (a : AttributeText v) : ∀ x ∈ a.lexemes, x.1.isInline = true := by
  rw [lexemes, List.forall_mem_append, List.forall_mem_cons]
  refine ⟨by simp [TokenKind.isInline], rfl, ?_⟩
  cases a.setting with
  | none => simp [partLexemes]
  | some value =>
    simp only [partLexemes, AttrValueText.assigned, List.forall_mem_cons]
    refine ⟨rfl, rfl, rfl, ?_⟩
    cases value with
    | bool b => simp [AttrValueText.lexemes, TokenKind.isInline]
    | string s within => simp [AttrValueText.lexemes, TokenKind.isInline]
    | list items => exact inline_bracket NameText.inline _ _ _
    | name n other => exact n.inline

end MatlabOutline
