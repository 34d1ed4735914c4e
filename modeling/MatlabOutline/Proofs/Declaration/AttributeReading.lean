import Mathlib.Data.List.Nodup
import MatlabOutline.Proofs.Declaration.AttributeText
import MatlabOutline.Proofs.Declaration.ClassOpening
import MatlabOutline.Proofs.Declaration.EntryReading
import MatlabOutline.Proofs.Declaration.QuotedText
import MatlabOutline.Proofs.LineEndings.Attributes
import MatlabOutline.Proofs.WellFormed.Entity

/-!
Reading attribute lists. Main statement: from the text of a list its attributes are read in order under
their spellings in the vocabulary, with one warning for each value that its attribute does not accept, and
nothing behind the closing parenthesis is read (`Reader.attributes_text`).
-/

namespace MatlabOutline

open Lexer

/-- The comma or the bracket that ends an item of a list. -/
structure Token.Ends (t : Token) (closing : String) : Prop where
  kind : t.kind = .punctuation
  text : t.text = "," ∨ t.text = closing

namespace Token.Ends

variable {t : Token} {closing : String} (ends : t.Ends closing)
include ends

theorem solid : t.isWhitespace = false ∧ (t.kind == .comment) = false ∧ t.kind ≠ .string := by
  simp [isWhitespace, ends.kind]

theorem not_isPunct {mark : String} (other : mark ≠ "," ∧ mark ≠ closing) : t.isPunct mark = false := by
  rw [isPunct, is, Bool.and_eq_false_iff]
  rcases ends.text with text | text
  · exact .inr (by simp [text, other.1.symm])
  · exact .inr (by simp [text, other.2.symm])

end Token.Ends

namespace NameText

theorem text_ne_empty (n : NameText) : n.text.isEmpty = false := by
  rw [Bool.eq_false_iff, ne_eq, String.isEmpty_iff, text, String.ofList_eq_empty_iff]
  intro empty
  have solid := n.isItem.solid
  simp [empty] at solid

/-- The lexemes of a name are the `?`, names and dots. -/
theorem parts (n : NameText) : ∀ x ∈ n.lexemes, x.1 = .operator ∨ x.1 = .name ∨ x = (.punctuation, ['.']) := by
  intro x member
  rw [lexemes, List.mem_append, TypeText.lexemes, List.mem_cons, List.mem_flatMap] at member
  rcases member with asks | rfl | ⟨f, -, field⟩
  · split at asks
    · obtain rfl := List.mem_singleton.mp asks
      exact .inl rfl
    · simp at asks
  · exact .inr (.inl rfl)
  · rcases List.mem_pair.mp field with rfl | rfl
    · exact .inr (.inr rfl)
    · exact .inr (.inl rfl)

end NameText

/-- A value begins with code. -/
theorem AttrValueText.lexemes_cons (value : AttrValueText) :
    ∃ kind cs more, value.lexemes = (kind, cs) :: more ∧ kind ≠ .whitespace ∧ kind ≠ .comment := by
  cases value with
  | name n =>
    obtain ⟨asks, name⟩ := n
    cases asks <;> exact ⟨_, _, _, rfl, by simp⟩
  | _ => exact ⟨_, _, _, rfl, by simp⟩

namespace Cursor

section Lists

variable {ts rest : List Token} (items : List String) (passed : List Token)

theorem listFrom_name {n : NameText} (read : ts.map Token.lexeme = n.lexemes) (item : String) :
    listFrom items item false passed (ts ++ rest) =
      listFrom items (item ++ n.text) false (ts.reverse ++ passed) rest := by
  have going (us : List Token) (part : ∀ t ∈ us, t.lexeme.1 = .operator ∨ t.lexeme.1 = .name ∨
      t.lexeme = (.punctuation, ['.'])) (item : String) (passed : List Token) :
      listFrom items item false passed (us ++ rest) =
        listFrom items (item ++ Token.concat us) false (us.reverse ++ passed) rest := by
    induction us generalizing item passed with
    | nil => simp [Token.concat]
    | cons t us ih =>
      rw [List.forall_mem_cons] at part
      have step : listFrom items item false passed (t :: (us ++ rest)) =
          listFrom items (item ++ t.text) false (t :: passed) (us ++ rest) := by
        rcases part.1 with kind | kind | dot
        · simp only [Token.lexeme] at kind
          simp [listFrom, Token.isNewline, Token.isPunct, Token.is, Token.isWhitespace, isString, kind]
        · simp only [Token.lexeme] at kind
          simp [listFrom, Token.isNewline, Token.isPunct, Token.is, Token.isWhitespace, isString, kind]
        · obtain ⟨kind, text⟩ := Token.of_lexeme dot
          have dot : t.text = "." := text
          simp [listFrom, Token.isNewline, Token.isPunct, Token.is, Token.isWhitespace, isString, kind, dot]
      rw [List.cons_append, step, ih part.2]
      simp [Token.concat, String.append_assoc]
  have spelled : Token.concat ts = n.text := by
    rw [Token.concat_of_lexemes read, n.isItem.spells, NameText.text]
  rw [going ts, spelled]
  intro t member
  exact n.parts _ (read ▸ List.mem_map_of_mem member)

/-- White space ends an item. -/
theorem listFrom_gap {w : List Char} (read : ts.map Token.lexeme = gapLexemes w) (item : String) :
    ∃ items' item', endItem items' item' = endItem items item ∧ (item = "" → items' = items ∧ item' = "") ∧
      listFrom items item false passed (ts ++ rest) = listFrom items' item' false (ts.reverse ++ passed) rest := by
  rw [gapLexemes] at read
  split at read
  · obtain rfl := List.map_eq_nil_iff.mp read
    exact ⟨items, item, rfl, fun empty => ⟨rfl, empty⟩, rfl⟩
  · obtain ⟨t, r, rfl, kind, -, rest'⟩ := Token.eq_cons_of_lexemes read
    obtain rfl := List.map_eq_nil_iff.mp rest'
    refine ⟨endItem items item, "", by simp [endItem], fun empty => ⟨by simp [endItem, empty], rfl⟩, ?_⟩
    have marker : t.isContinuation = false := by simp [Token.isContinuation, kind]
    simp [listFrom, Token.isNewline, Token.isPunct, Token.is, Token.isWhitespace, marker, kind]

theorem listFrom_spaced {s : Spaced NameText} (read : ts.map Token.lexeme = s.lexemes NameText.lexemes) :
    ∃ items' item', endItem items' item' = items ++ [s.item.text] ∧
      listFrom items "" false passed (ts ++ rest) = listFrom items' item' false (ts.reverse ++ passed) rest := by
  obtain ⟨before, more, rfl, gap, read⟩ := List.map_eq_append_iff.mp read
  obtain ⟨name, after, rfl, name_read, gap'⟩ := List.map_eq_append_iff.mp read
  obtain ⟨items', item', -, start, first⟩ := listFrom_gap items passed gap ""
  obtain ⟨rfl, rfl⟩ := start rfl
  obtain ⟨items', item', same, -, last⟩ := listFrom_gap items'
    (name.reverse ++ (before.reverse ++ passed)) gap' s.item.text
  refine ⟨items', item', by rw [same, endItem, s.item.text_ne_empty]; rfl, ?_⟩
  rw [List.append_assoc, List.append_assoc, first, listFrom_name _ _ name_read, String.empty_append, last]
  simp

/-- A list of names is read in order. -/
theorem listFrom_list {names : List (Spaced NameText)}
    (read : ts.map Token.lexeme = listLexemes NameText.lexemes names) {close : Token}
    (closes : close.segment = (.punctuation, "\x7d")) :
    listFrom items "" false passed (ts ++ close :: rest) =
      .ok (items ++ names.map (·.item.text), ⟨close :: (ts.reverse ++ passed), rest⟩) := by
  obtain ⟨kind, text⟩ := Prod.mk.inj closes
  rcases names with _ | ⟨s, names⟩
  · obtain rfl := List.map_eq_nil_iff.mp read
    simp [listFrom, Token.isNewline, Token.isPunct, Token.is, endItem, kind, text]
  induction names generalizing s ts items passed with
  | nil =>
    rw [listLexemes_singleton] at read
    obtain ⟨items', item', same, moved⟩ := listFrom_spaced items passed read
    rw [moved]
    simp [listFrom, Token.isNewline, Token.isPunct, Token.is, kind, text, same]
  | cons s' names ih =>
    rw [listLexemes_cons_cons] at read
    obtain ⟨first, more, rfl, item, read⟩ := List.map_eq_append_iff.mp read
    obtain ⟨c, more, rfl, kind, text, read⟩ := Token.eq_cons_of_lexemes read
    obtain ⟨items', item', same, moved⟩ := listFrom_spaced items passed item
    have comma : c.text = "," := text
    have further := ih (items ++ [s.item.text]) (c :: (first.reverse ++ passed)) s' read
    rw [List.append_assoc, List.cons_append, moved]
    simp [listFrom, Token.isNewline, Token.isPunct, Token.is, kind, comma, same, further]

end Lists

section Values

variable {ts gap rest : List Token} {t : Token} (passed : List Token)

theorem attrValue_string (string : isString t = true) :
    attrValue ⟨passed, t :: rest⟩ =
      .ok (.string (stringRun "" ⟨passed, t :: rest⟩).1, (stringRun "" ⟨passed, t :: rest⟩).2) := by
  simp only [attrValue, peek, List.head?_cons, string, if_true]

theorem attrValue_metaclass (mark : t.segment = (.operator, "?")) :
    attrValue ⟨passed, t :: rest⟩ = metaclass ⟨t :: passed, rest⟩ := by
  obtain ⟨kind, text⟩ := Prod.mk.inj mark
  simp [attrValue, peek, isString, Token.isOperator, Token.is, kind, text, advance]

theorem attrValue_list (mark : t.segment = (.punctuation, "\x7b")) :
    attrValue ⟨passed, t :: rest⟩ = valueList ⟨t :: passed, rest⟩ := by
  obtain ⟨kind, text⟩ := Prod.mk.inj mark
  simp [attrValue, peek, isString, Token.isOperator, Token.isPunct, Token.is, kind, text, advance]

theorem attrValue_name {name : String} {c : Cursor} (named : dottedName? ⟨passed, t :: rest⟩ = some (name, c)) :
    attrValue ⟨passed, t :: rest⟩ = .ok (valueOfName name, c) := by
  have kind : t.kind = .name := by
    by_contra other
    simp [dottedName?, take?, isName, other] at named
  simp [attrValue, peek, isString, Token.isOperator, Token.isPunct, Token.is, kind, named]

theorem dottedName?_text {name : TypeText} (read : ts.map Token.lexeme = name.lexemes)
    (stop : rest.head?.any (·.isPunct ".") = false) :
    dottedName? ⟨passed, ts ++ rest⟩ = some (String.ofList name.chars, ⟨ts.reverse ++ passed, rest⟩) := by
  obtain ⟨t, r, rfl, kind, text, read⟩ := Token.eq_cons_of_lexemes read
  rw [dottedName?]
  simp only [take?, List.cons_append, isName, kind, beq_self_eq_true, if_true, text]
  rw [dottedFrom_fields read stop]
  simp [TypeText.chars]

/-- A value that is read to its end leaves what stands behind it. -/
theorem attrValue_whole {value : AttrValueText} (read : ts.map Token.lexeme = value.lexemes)
    (stop : rest.head?.any (·.isPunct ".") = false) (code : ∀ s within, value ≠ .string s within) :
    attrValue ⟨passed, ts ++ rest⟩ = .ok (value.value, ⟨ts.reverse ++ passed, rest⟩) := by
  cases value with
  | bool b =>
    obtain ⟨u, r, rfl, kind, text, read⟩ := Token.eq_cons_of_lexemes read
    obtain rfl := List.map_eq_nil_iff.mp read
    have named : dottedName? ⟨passed, u :: rest⟩ = some ((AttrValue.bool b).display, ⟨u :: passed, rest⟩) := by
      rw [String.ofList_toList] at text
      simp [dottedName?, take?, isName, kind, dottedFrom_stop stop, text]
    rw [List.cons_append, List.nil_append, attrValue_name _ named]
    cases b <;> rfl
  | string s within => exact absurd rfl (code s within)
  | list items =>
    obtain ⟨u, r, rfl, kind, text, read⟩ := Token.eq_cons_of_lexemes read
    obtain ⟨names, close, rfl, listed, read⟩ := List.map_eq_append_iff.mp read
    obtain ⟨close, r, rfl, kind', text', read⟩ := Token.eq_cons_of_lexemes read
    obtain rfl := List.map_eq_nil_iff.mp read
    have items : listFrom [] "" false (u :: passed) (names ++ close :: rest) = _ :=
      listFrom_list [] (u :: passed) listed (Prod.ext kind' text')
    rw [List.cons_append, attrValue_list _ (Prod.ext kind text), valueList]
    simp only [List.append_assoc, List.singleton_append, items]
    simp [AttrValueText.value, ← List.map_map, ← Function.comp_def, map_item_listed]
  | name n distinct =>
    obtain ⟨asks, name⟩ := n
    cases asks with
    | true =>
      obtain ⟨u, r, rfl, kind, text, read⟩ := Token.eq_cons_of_lexemes read
      have named := dottedName?_text (u :: passed) read stop
      rw [List.cons_append, attrValue_metaclass _ (Prod.ext kind text), metaclass, named]
      simp [AttrValueText.value, NameText.text, NameText.chars]
    | false =>
      have named := dottedName?_text passed read stop
      obtain ⟨u, r, rfl, -⟩ := Token.eq_cons_of_lexemes read
      rw [List.cons_append] at named ⊢
      have text : NameText.text ⟨false, name⟩ = String.ofList name.chars := rfl
      rw [attrValue_name _ named, ← text, valueOfName, if_neg distinct.1, if_neg distinct.2]
      rfl

variable (white : ∀ g ∈ gap, g.isWhitespace = true)
include white

/-- A value is read up to the comma or the parenthesis behind it. -/
theorem attrValue_text {value : AttrValueText} (read : ts.map Token.lexeme = value.lexemes) (ends : t.Ends ")") :
    ∃ c, attrValue ⟨passed, ts ++ (gap ++ t :: rest)⟩ = .ok (value.value, c) ∧
      c.skipWhitespace = ⟨gap.reverse ++ (ts.reverse ++ passed), t :: rest⟩ := by
  obtain ⟨solid, code, other⟩ := ends.solid
  have behind := skipWhitespace_split white solid code
  have still := skipWhitespace_split (List.forall_mem_nil _) solid code
  have stop : (gap ++ t :: rest).head?.any (·.isPunct ".") = false := by
    rcases gap with _ | ⟨g, gap⟩
    · simpa using ends.not_isPunct (by decide)
    · have kind : g.kind = .whitespace := by simpa [Token.isWhitespace] using white g (by simp)
      simp [Token.isPunct, Token.is, kind]
  by_cases quoted : ∃ s within, value = .string s within
  · obtain ⟨s, within, rfl⟩ := quoted
    obtain ⟨u, r, rfl, kind, text, read⟩ := Token.eq_cons_of_lexemes read
    obtain rfl := List.map_eq_nil_iff.mp read
    have string : isString u = true := by simp [isString, kind]
    have content : unquote u.text = s := by rw [text, unquote_doubled, String.ofList_toList]
    have run : stringRun "" ⟨passed, u :: (gap ++ t :: rest)⟩ = (s, ⟨gap.reverse ++ u :: passed, t :: rest⟩) := by
      rw [stringRun_eq]
      simp only [take?, string, if_true, behind, content, String.empty_append]
      rw [stringRun_eq]
      simp [take?, isString, other]
    refine ⟨⟨gap.reverse ++ u :: passed, t :: rest⟩, ?_, still _ _⟩
    rw [List.cons_append, List.nil_append, attrValue_string _ string, run]
    rfl
  · simp only [not_exists] at quoted
    exact ⟨_, attrValue_whole passed read stop quoted, behind _ _⟩

/-- What stands behind the name of an attribute is read up to the comma or the parenthesis behind it. -/
theorem attrSetting_text {setting : Option AttrValueText}
    (read : ts.map Token.lexeme = partLexemes AttrValueText.assigned setting) (ends : t.Ends ")") (negated : Bool) :
    ∃ c, attrSetting negated (skipWhitespace ⟨passed, ts ++ (gap ++ t :: rest)⟩) =
        .ok (AttrValueText.setting negated setting, c) ∧
      c.skipWhitespace = ⟨gap.reverse ++ (ts.reverse ++ passed), t :: rest⟩ := by
  obtain ⟨solid, code, -⟩ := ends.solid
  cases setting with
  | none =>
    obtain rfl := List.map_eq_nil_iff.mp read
    have still := skipWhitespace_split (List.forall_mem_nil _) solid code
    refine ⟨_, ?_, still _ _⟩
    rw [List.nil_append, skipWhitespace_split white solid code, attrSetting]
    simp [take?, Token.isOperator, Token.is, ends.kind, AttrValueText.setting]
  | some value =>
    obtain ⟨w, eq, r, rfl, -, mark, read, moved⟩ := exists_part rfl (by simp) read
    obtain ⟨w', r, rfl, kind', -, read⟩ := Token.eq_cons_of_lexemes read
    obtain ⟨c, whole, behind⟩ := attrValue_text (w' :: eq :: w :: passed) white read ends
    obtain ⟨kind, text⟩ := Prod.mk.inj mark
    have text : eq.text = "=" := text
    have start : skipWhitespace ⟨eq :: w :: passed, w' :: (r ++ (gap ++ t :: rest))⟩ =
        ⟨w' :: eq :: w :: passed, r ++ (gap ++ t :: rest)⟩ := by
      have blank : ∀ g ∈ [w'], g.isWhitespace = true := by simp [Token.isWhitespace, kind']
      obtain ⟨kind, cs, more, first, filled⟩ := value.lexemes_cons
      obtain ⟨u, r, rfl, same, -⟩ := Token.eq_cons_of_lexemes (read.trans first)
      exact skipWhitespace_split blank (by simp [Token.isWhitespace, same, filled]) (by simp [same, filled]) _ _
    refine ⟨c, ?_, by simpa using behind⟩
    rw [moved, attrSetting]
    simp only [take?, Token.isOperator, Token.is, kind, text, beq_self_eq_true, Bool.and_self, if_true,
      List.cons_append, start, whole]
    rfl

end Values

end Cursor

theorem CaseFold.fold_identifier {s : String} (word : isIdentifierChars s.toList = true) :
    fold s = s.toList.map Char.toLower := by
  have high : ∀ p ∈ toAscii, 122 < p.1.toNat := by decide
  have each : ∀ c ∈ s.toList, foldChar c = [c.toLower] := by
    intro c member
    have rest : isIdentRest c = true := List.all_eq_true.mp (all_isIdentRest_of_identifier word) c member
    have none : toAscii.lookup c = none := by
      rw [List.lookup_eq_none_iff]
      intro p folded
      have low := (isIdentRest_bounds c rest).2
      have far := high p folded
      rw [bne_iff_ne]
      rintro rfl
      omega
    rw [foldChar, none]
  rw [fold, List.flatMap_congr each, List.map_eq_flatMap]

/-- An attribute is found in any letter case. -/
theorem Vocabulary.Regular.lookup_spelling {v : Vocabulary} (regular : v.Regular) (a : AttributeText v) :
    v.lookup a.spelling = some (a.name, a.kind) := by
  have folded : CaseFold.fold a.spelling = a.name.toList.map Char.toLower := by
    rw [CaseFold.fold_identifier (a.isIdentifierChars regular), a.cased]
  have same : ∀ b ∈ v.attributes, CaseFold.sameAs b.1 a.spelling = true ↔
      b.1.toList.map Char.toLower = a.name.toList.map Char.toLower := by
    intro b member
    rw [CaseFold.sameAs, beq_iff_eq, folded, CaseFold.fold_identifier (regular.identifiers b member)]
  rw [lookup]
  cases found : v.attributes.find? fun b => CaseFold.sameAs b.1 a.spelling with
  | none =>
    rw [List.find?_eq_none] at found
    exact absurd ((same _ a.known).mpr rfl) (found _ a.known)
  | some b =>
    have member := List.mem_of_find?_eq_some found
    have named := List.find?_some found
    have alike := (same b member).mp named
    exact congrArg some (List.inj_on_of_nodup_map regular.apart member a.known alike)

namespace Reader

section Attributes

variable {v : Vocabulary} (regular : v.Regular) {ts gap rest : List Token} {t : Token} {line : Nat}
  (placed : ∀ u ∈ ts, u.line = line) (passed : List Token) (notes : List Note)
include regular placed

/-- An attribute is read up to the comma or the parenthesis behind it. -/
theorem oneAttribute_text (white : ∀ g ∈ gap, g.isWhitespace = true) {a : AttributeText v}
    (read : ts.map Token.lexeme = a.lexemes) (ends : t.Ends ")") :
    ∃ c, oneAttribute v ⟨⟨passed, ts ++ (gap ++ t :: rest)⟩, notes⟩ =
        .ok ((a.name, a.value), ⟨c, (a.warning line).toList ++ notes⟩) ∧
      c.skipWhitespace = ⟨gap.reverse ++ (ts.reverse ++ passed), t :: rest⟩ := by
  rw [AttributeText.lexemes] at read
  obtain ⟨signs, more, rfl, signed, read⟩ := List.map_eq_append_iff.mp read
  obtain ⟨u, more, rfl, kind, text, read⟩ := Token.eq_cons_of_lexemes read
  rw [String.ofList_toList] at text
  have name : Cursor.isName u = true := by simp [Cursor.isName, kind]
  have here : u.line = line := placed u (by simp)
  have start (p : List Token) : Cursor.skipWhitespace ⟨p, u :: (more ++ (gap ++ t :: rest))⟩ =
      ⟨p, u :: (more ++ (gap ++ t :: rest))⟩ :=
    Cursor.skipWhitespace_split (List.forall_mem_nil _) (by simp [Token.isWhitespace, kind]) (by simp [kind]) _ _
  have sign : Cursor.at? ⟨passed, signs ++ u :: (more ++ (gap ++ t :: rest))⟩ isNegation = a.sign.isSome ∧
      Cursor.skipIf ⟨passed, signs ++ u :: (more ++ (gap ++ t :: rest))⟩ isNegation =
        ⟨signs.reverse ++ passed, u :: (more ++ (gap ++ t :: rest))⟩ := by
    cases sign : a.sign with
    | none =>
      rw [sign] at signed
      obtain rfl := List.map_eq_nil_iff.mp signed
      simp [Cursor.at?, Cursor.peek, Cursor.skipIf, Cursor.take?, isNegation, Token.isOperator, Token.is, kind]
    | some d =>
      rw [sign] at signed
      obtain ⟨s, r, rfl, kind, text, read⟩ := Token.eq_cons_of_lexemes signed
      obtain rfl := List.map_eq_nil_iff.mp read
      have negates : isNegation s = true := by
        rw [isNegation, Token.isOperator, Token.isOperator, Token.is, Token.is, kind, text]
        rcases a.signed d sign with rfl | rfl <;> decide
      simp [Cursor.at?, Cursor.peek, Cursor.skipIf, Cursor.take?, negates]
  obtain ⟨c, set, behind⟩ := Cursor.attrSetting_text (u :: (signs.reverse ++ passed)) white read ends
    a.sign.isSome
  refine ⟨c, ?_, by simpa using behind⟩
  rw [oneAttribute]
  simp only [List.append_assoc, List.cons_append, sign, start, Cursor.take?, name, if_true, text,
    regular.lookup_spelling a, set, Cursor.line]
  rw [AttributeText.warning, AttributeText.value]
  cases a.kind.accepts (AttrValueText.setting a.sign.isSome a.setting) <;> simp [withCursor, warn, note, here]

/-- An attribute is taken into the table, and its comma or the parenthesis is passed. -/
theorem attributesFrom_spaced {s : Spaced (AttributeText v)}
    (read : ts.map Token.lexeme = s.lexemes AttributeText.lexemes) (ends : t.Ends ")") (table : Table AttrValue) :
    attributesFrom v table ⟨⟨passed, ts ++ t :: rest⟩, notes⟩ =
      if t.isPunct "," then
        attributesFrom v (table.insert s.item.name s.item.value)
          ⟨⟨t :: (ts.reverse ++ passed), rest⟩, (s.item.warning line).toList ++ notes⟩
      else .ok (table.insert s.item.name s.item.value,
        ⟨⟨t :: (ts.reverse ++ passed), rest⟩, (s.item.warning line).toList ++ notes⟩) := by
  obtain ⟨before, more, rfl, gap, read⟩ := List.map_eq_append_iff.mp read
  obtain ⟨item, after, rfl, item_read, gap'⟩ := List.map_eq_append_iff.mp read
  have placed : ∀ u ∈ item, u.line = line := fun u member => placed u (by simp [member])
  obtain ⟨c, one, behind⟩ : ∃ c : Cursor,
      oneAttribute v ⟨⟨before.reverse ++ passed, item ++ (after ++ t :: rest)⟩, notes⟩ = _ ∧ c.skipWhitespace = _ :=
    oneAttribute_text regular placed (before.reverse ++ passed) notes (Token.white_of_lexemes gap') item_read ends
  obtain ⟨u, r, rfl, kind⟩ : ∃ u r, item = u :: r ∧ (u.kind = .operator ∨ u.kind = .name) := by
    rw [AttributeText.lexemes] at item_read
    cases sign : s.item.sign with
    | none =>
      rw [sign] at item_read
      obtain ⟨u, r, rfl, kind, -⟩ := Token.eq_cons_of_lexemes item_read
      exact ⟨u, r, rfl, .inr kind⟩
    | some d =>
      rw [sign] at item_read
      obtain ⟨u, r, rfl, kind, -⟩ := Token.eq_cons_of_lexemes item_read
      exact ⟨u, r, rfl, .inl kind⟩
  have code : u.isWhitespace = false ∧ (u.kind == .comment) = false ∧ u.isPunct ")" = false := by
    rcases kind with kind | kind <;> simp [Token.isWhitespace, Token.isPunct, Token.is, kind]
  have start := Cursor.skipWhitespace_split (Token.white_of_lexemes gap) code.1 code.2.1 passed
    (r ++ (after ++ t :: rest))
  rw [List.cons_append] at one
  rw [attributesFrom_eq]
  simp only [move, List.append_assoc, List.cons_append, start, Cursor.take?, code.2.2, one, behind,
    Bool.false_eq_true, if_false]
  by_cases comma : t.isPunct "," = true
  · simp [comma, withCursor]
  · have close : t.isPunct ")" = true := by
      rcases ends.text with text | text
      · simp [Token.isPunct, Token.is, ends.kind, text] at comma
      · simp [Token.isPunct, Token.is, ends.kind, text]
    simp [comma, close, withCursor]

/-- The attributes of a list are read in order, each with the warning for it. -/
theorem attributesFrom_list {items : List (Spaced (AttributeText v))}
    (read : ts.map Token.lexeme = listLexemes AttributeText.lexemes items) {close : Token}
    (closes : close.segment = (.punctuation, ")")) (table : Table AttrValue) :
    attributesFrom v table ⟨⟨passed, ts ++ close :: rest⟩, notes⟩ =
      .ok (items.foldl (fun table s => table.insert s.item.name s.item.value) table,
        ⟨⟨close :: (ts.reverse ++ passed), rest⟩, (items.filterMap (·.item.warning line)).reverse ++ notes⟩) := by
  obtain ⟨kind, text⟩ := Prod.mk.inj closes
  have close_ends : close.Ends ")" := ⟨kind, .inr text⟩
  rcases items with _ | ⟨s, items⟩
  · obtain rfl := List.map_eq_nil_iff.mp read
    have still := Cursor.skipWhitespace_split (List.forall_mem_nil _) close_ends.solid.1 close_ends.solid.2.1 passed
      rest
    rw [attributesFrom_eq]
    simp only [List.nil_append] at still
    simp [move, still, Cursor.take?, Token.isPunct, Token.is, kind, text, withCursor]
  induction items generalizing s ts passed notes table with
  | nil =>
    rw [listLexemes_singleton] at read
    rw [attributesFrom_spaced regular placed passed notes read close_ends,
      if_neg (by simp [Token.isPunct, Token.is, text])]
    cases warned : s.item.warning line <;> simp [warned]
  | cons s' items ih =>
    rw [listLexemes_cons_cons] at read
    obtain ⟨first, more, rfl, item, read⟩ := List.map_eq_append_iff.mp read
    obtain ⟨c, more, rfl, kind, text, read⟩ := Token.eq_cons_of_lexemes read
    have comma : c.text = "," := text
    have placed_item : ∀ u ∈ first, u.line = line := fun u member => placed u (by simp [member])
    have placed_more : ∀ u ∈ more, u.line = line := fun u member => placed u (by simp [member])
    rw [List.append_assoc, List.cons_append,
      attributesFrom_spaced regular placed_item passed notes item ⟨kind, .inl comma⟩,
      if_pos (by simp [Token.isPunct, Token.is, kind, comma]), ih placed_more _ _ _ _ read]
    cases warned : s.item.warning line <;> simp [warned]

end Attributes

end Reader

/-- Tokens without a line end among them are on the line on which the first of them begins. -/
theorem line_of_inline {source : String} {before front back : List Token}
    (cut : tokenize source = before ++ (front ++ back))
    (plain : ∀ t ∈ front, t.isNewline = false ∧ t.isRemark = false) :
    ∀ t ∈ front, t.line = 1 + Text.feeds (Token.concat before).toList := by
  intro t member
  obtain ⟨first, after, rfl⟩ := List.append_of_mem member
  have whole : tokenize source = before ++ first ++ t :: (after ++ back) := by simp [cut]
  have feeds : Text.feeds (Token.concat first).toList = 0 := by
    refine Token.feeds_concat_eq_zero fun u inside => ?_
    obtain ⟨within, code⟩ := plain u (by simp [inside])
    have member : u ∈ tokenize source := by simp [whole, inside]
    exact feeds_of_plain member within code
  rw [line_of_tokenize whole, Token.concat_append, String.toList_append, Text.feeds_append, feeds, Nat.add_zero]

section AttributesText

variable {v : Vocabulary} (items : List (AttributeText v))

/-- A list of attributes is read as its lexemes at the beginning of a text. -/
theorem lexemes_attributesText (regular : v.Regular) (r : List Char) (quote : r.head? ≠ some '\'') :
    lexemes .initial ((attributesText items).toList ++ r) =
      bracketLexemes '(' ')' AttributeText.lexemes (Spaced.listed items) ++ lexemes {} r := by
  have isItem := AttributeText.isItem regular
  have whole := (Reads.nil r).bracket isItem quote (.inl ⟨rfl, rfl⟩) (Spaced.listed items)
  have listed : listChars AttributeText.chars (Spaced.listed items) =
      (", ".intercalate (items.map AttributeText.text)).toList := listChars_listed (fun a => rfl) items
  rw [List.append_nil, Reads, spelled_bracketLexemes isItem, bracketChars, listed] at whole
  have first (z : List Char) : lexemes .initial ('(' :: z) = lexemes {} ('(' :: z) := by
    rw [lexemes, lexemes]
    rfl
  rw [← whole, List.cons_append, ← first, attributesText]
  simp

theorem tokenize_attributesText (regular : v.Regular) :
    ∃ list, tokenize (attributesText items ++ "\n") = list ++ [⟨.newline, "\n", 1⟩] ∧
      list.map Token.lexeme = bracketLexemes '(' ')' AttributeText.lexemes (Spaced.listed items) ∧
      ∀ t ∈ list, t.line = 1 := by
  have listed := lexemes_attributesText items regular ['\n'] (by simp)
  generalize whole : bracketLexemes '(' ')' AttributeText.lexemes (Spaced.listed items) = xs at listed
  have feed : lexemes {} ['\n'] = [(.newline, ['\n'])] := by
    rw [lexemes_of_step (show step {} '\n' [] = ⟨.newline, ⟨[], []⟩, .initial⟩ from rfl), lexemes]
  obtain ⟨list, n, cut, read⟩ : ∃ list n, tokenize (attributesText items ++ "\n") = list ++ [⟨.newline, "\n", n⟩] ∧
      list.map Token.lexeme = xs := by
    refine ⟨Token.place 1 xs, 1 + Text.feeds (xs.map Prod.snd).flatten, ?_, Token.map_lexeme_place 1 xs⟩
    rw [tokenize, String.toList_append, show "\n".toList = ['\n'] from rfl, listed, feed, Token.place_append]
    rfl
  have plain : ∀ t ∈ list, t.isNewline = false ∧ t.isRemark = false := by
    intro t member
    have inside : t.lexeme ∈ xs := read ▸ List.mem_map_of_mem member
    have inline := inline_bracket AttributeText.inline _ _ _ _ (whole ▸ inside)
    simp only [Token.lexeme] at inline
    cases kind : t.kind <;> simp_all [TokenKind.isInline, Token.isNewline, Token.isRemark]
  have level : Text.feeds (Token.concat list).toList = 0 := Token.feeds_concat_eq_zero fun t member =>
    have inside : t ∈ tokenize (attributesText items ++ "\n") := by simp [cut, member]
    feeds_of_plain inside (plain t member).1 (plain t member).2
  have last : n = 1 + Text.feeds (Token.concat list).toList := line_of_tokenize cut
  obtain rfl : n = 1 := by rw [last, level]
  exact ⟨list, cut, read, line_of_inline (cut.trans (List.nil_append _).symm) plain⟩

/-- The text of a list of attributes gives them in order under the spellings of the vocabulary, with one
warning for each value that its attribute does not accept, and the cursor comes to stand right behind the
closing parenthesis. -/
theorem Reader.attributes_text {v : Vocabulary} (known : v ∈ Vocabulary.all) (items : List (AttributeText v))
    (distinct : (items.map (·.name)).Nodup) :
    ∃ list, Token.concat list = attributesText items ∧
      tokenize (attributesText items ++ "\n") = list ++ [⟨.newline, "\n", 1⟩] ∧
      Reader.attributes v ⟨.ofTokens (tokenize (attributesText items ++ "\n")), []⟩ =
        .ok (⟨items.map fun a => (a.name, a.value)⟩,
          ⟨⟨list.reverse, [⟨.newline, "\n", 1⟩]⟩, (items.filterMap (·.warning 1)).reverse⟩) := by
  have regular := Vocabulary.regular_of_mem_all known
  obtain ⟨list, cut, read, placed⟩ := tokenize_attributesText items regular
  have text : Token.concat list = attributesText items := by
    have whole := concat_tokenize (attributesText items ++ "\n")
    rw [cut, Token.concat_append] at whole
    exact (String.append_left_inj "\n").mp whole
  refine ⟨list, text, cut, ?_⟩
  obtain ⟨opening, more, rfl, kind, mark, read⟩ := Token.eq_cons_of_lexemes read
  obtain ⟨inner, last, rfl, listed, read⟩ := List.map_eq_append_iff.mp read
  obtain ⟨close, last, rfl, kind', mark', read⟩ := Token.eq_cons_of_lexemes read
  obtain rfl := List.map_eq_nil_iff.mp read
  have opens : opening.isPunct "(" = true := by simp [Token.isPunct, Token.is, kind, mark]
  have inside : ∀ u ∈ inner, u.line = 1 := fun u member => placed u (by simp [member])
  have each {β : Type} (f : AttributeText v → β) : (Spaced.listed items).map (fun s => f s.item) = items.map f := by
    rw [← Function.comp_def f, ← List.map_map, map_item_listed]
  have warnings : (Spaced.listed items).filterMap (fun s => s.item.warning 1) = items.filterMap (·.warning 1) := by
    rw [← Function.comp_def (AttributeText.warning · 1), ← List.filterMap_map, map_item_listed]
  have filled : attributesFrom v {} ⟨⟨[opening], inner ++ close :: [⟨.newline, "\n", 1⟩]⟩, []⟩ = _ :=
    attributesFrom_list regular inside [opening] [] listed (Prod.ext kind' mark') {}
  rw [Table.foldl_insert _ _ (by simpa [Table.keys, each (·.name)] using distinct), each fun a => (a.name, a.value),
    warnings] at filled
  rw [attributes, cut]
  simp only [Cursor.ofTokens, Cursor.take?, List.cons_append, opens, if_true, withCursor, List.append_assoc,
    List.nil_append, filled]
  simp

end AttributesText

/-- Attributes of a block of methods, of which the last has a value of another kind. -/
def AttributeText.sample : List (AttributeText .ofMethod) :=
  [{ name := "Static", kind := .bool, known := by decide, spelling := "sTATIC", cased := by decide,
     setting := some (.bool true) },
    { name := "Access", kind := .access, known := by decide, spelling := "access", cased := by decide,
      setting := some (.list [⟨true, ⟨⟨"lib", by decide, by decide⟩, ["end"], by decide⟩⟩,
        ⟨false, ⟨⟨"Friend", by decide, by decide⟩, [], by decide⟩⟩]) },
    { name := "Description", kind := .string, known := by decide, spelling := "DescriptioN", cased := by decide,
      setting := some (.string "it's (50%), \x7bx\x7d ..." (by decide)) },
    { name := "Hidden", kind := .bool, known := by decide, spelling := "Hidden", cased := by decide, sign := some '~',
      setting := none },
    { name := "Sealed", kind := .bool, known := by decide, spelling := "SEALED", cased := by decide,
      setting := some (.name ⟨false, ⟨⟨"yes", by decide, by decide⟩, [], by decide⟩⟩ (by decide)) }]

theorem Reader.attributes_text_sample :
    attributesText AttributeText.sample =
      "(sTATIC = true, access = \x7b?lib.end, Friend\x7d, DescriptioN = 'it''s (50%), \x7bx\x7d ...', ~Hidden, " ++
        "SEALED = yes)" ∧
    ∃ list, Token.concat list = attributesText AttributeText.sample ∧
      tokenize (attributesText AttributeText.sample ++ "\n") = list ++ [⟨.newline, "\n", 1⟩] ∧
      Reader.attributes .ofMethod ⟨.ofTokens (tokenize (attributesText AttributeText.sample ++ "\n")), []⟩ =
        .ok (⟨[("Static", .bool true), ("Access", .list ["?lib.end", "Friend"]),
            ("Description", .string "it's (50%), \x7bx\x7d ..."), ("Hidden", .bool false), ("Sealed", .name "yes")]⟩,
          ⟨⟨list.reverse, [⟨.newline, "\n", 1⟩]⟩, [.warning 1 (.attributeKind "Sealed" .bool (.name "yes"))]⟩) :=
  ⟨by decide +kernel, Reader.attributes_text (by decide) AttributeText.sample (by decide)⟩

end MatlabOutline
