import MatlabOutline.Declaration.Entry
import MatlabOutline.Proofs.Docstring.Lines
import MatlabOutline.Proofs.Lexing.EndedText
import MatlabOutline.Proofs.Lexing.Writing

/-!
Texts that can stand as the default value of an entry: the brackets among their tokens are balanced, and
outside brackets no token ends a value. Main statement: behind its mark, such a text is read as tokens
that a default value holds, with the same text, and the line feed behind it ends its line
(`ValueText.lexemes_marked`).
-/

namespace MatlabOutline

namespace Text

theorem mem_of_mem_unix {c : Char} {cs : List Char} (member : c ∈ unix cs) : c ∈ cs := by
  fun_induction unix cs with
  | case1 => exact member
  | case2 d cs pair ih => exact List.mem_cons_of_mem _ (ih member)
  | case3 d cs single ih => exact List.mem_cons.mpr ((List.mem_cons.mp member).imp_right ih)

theorem unix_eq_nil_iff {cs : List Char} : unix cs = [] ↔ cs = [] := by
  fun_induction unix cs with
  | case1 => simp
  | case2 d cs pair ih =>
    have more : cs ≠ [] := by
      rintro rfl
      simp at pair
    simpa [more] using ih
  | case3 => simp

theorem head?_trim (cs : List Char) : (trim cs).head?.any isBlank = false := by
  by_cases empty : trim cs = []
  · rw [empty]
    rfl
  · have filled : String.ofList (trim cs) ≠ "" := fun none => empty (String.ofList_eq_empty_iff.mp none)
    simpa using (isTrimmed_trim filled).front

/-- Line ends can be rewritten before or after the white space is trimmed. -/
theorem trim_unix (cs : List Char) : trim (unix cs) = unix (trim cs) := by
  have within {ds : List Char} (blank : allBlank ds = true) : allBlank (unix ds) = true :=
    List.all_eq_true.mpr fun c member => List.all_eq_true.mp blank c (mem_of_mem_unix member)
  have other {d e : Char} (solid : isBlank d = false) (blank : isBlank e = true) : d ≠ e := by
    rintro rfl
    rw [solid] at blank
    cases blank
  obtain ⟨a, b, whole, before, after⟩ := exists_trim cs
  have front := head?_trim cs
  have back : (trim cs).getLast?.any isBlank = false := getLast?_trimEnd _
  generalize trim cs = core at *
  subst whole
  by_cases empty : core = []
  · have all : allBlank (a ++ b) = true := by
      rw [allBlank, List.all_append, Bool.and_eq_true]
      exact ⟨before, after⟩
    rw [empty, List.nil_append]
    exact (trim_eq_nil_iff _).mpr (within all)
  obtain ⟨c, r, rfl⟩ := List.exists_cons_of_ne_nil empty
  have first : isBlank c = false := by simpa using front
  obtain ⟨s, d, last⟩ : ∃ s d, c :: r = s ++ [d] := ⟨_, _, (List.dropLast_concat_getLast empty).symm⟩
  have final : isBlank d = false := by simpa [last] using back
  have apart : (c :: r ++ b).head? ≠ some '\n' := by simpa using other first (by decide)
  have behind : (c :: r).getLast? ≠ some '\r' := by simpa [last] using other final (by decide)
  rw [unix_append (.inr apart), unix_append (.inl behind), trim_blank_append (within before),
    trim_append_blank (within after)]
  apply trim_of_solid
  · rw [unix, if_neg fun pair => other first (by decide) pair.1]
    simpa using first
  · rw [last, unix_append (.inr (by simpa using other final (by decide)))]
    simpa [unix] using final

end Text

/-- A token that a default value holds where `depth` brackets are open. Inside brackets `end` is an
index, and lines may end. -/
def Token.isValuePart (depth : Nat) (t : Token) : Bool :=
  t.kind != .comment && (t.kind != .keyword || depth != 0 && t.text == "end") &&
    (depth != 0 || !(t.isNewline || t.isPunct ";" || t.isPunct ","))

/-- Tokens that a default value holds and that close the `depth` brackets that are open. -/
def closesValue (depth : Nat) : List Token → Bool
  | [] => depth == 0
  | t :: r =>
    if t.isOpenBracket then closesValue (depth + 1) r
    else if t.isCloseBracket then depth != 0 && closesValue (depth - 1) r
    else t.isValuePart depth && closesValue depth r

/-- A text whose tokens a default value holds. -/
structure ValueText where
  text : String
  closed : closesValue 0 (tokenize text) = true
  filled : Text.allBlank text.toList = false

/-- The text that is read: white space around it is left out, and every line ends with a line feed. -/
def ValueText.trimmed (v : ValueText) : String :=
  String.ofList (Text.unix (Text.trim v.text.toList))

open Lexer Scan

namespace Token

/-- A token of which only the lexeme matters. -/
def ofLexeme (x : TokenKind × List Char) : Token :=
  ⟨x.1, String.ofList x.2, 0⟩

end Token

theorem closesValue_of_lexemes {ts : List Token} {xs : List (TokenKind × List Char)}
    (read : ts.map Token.lexeme = xs) (depth : Nat) :
    closesValue depth ts = closesValue depth (xs.map Token.ofLexeme) := by
  subst read
  induction ts generalizing depth with
  | nil => rfl
  | cons t ts ih =>
    have same : Token.ofLexeme t.lexeme = { t with line := 0 } := by
      simp [Token.ofLexeme, Token.lexeme]
    simp only [List.map_cons, closesValue, same, ih]
    rfl

section Values

variable {xs ys : List (TokenKind × List Char)} {depth : Nat}

theorem closesValue_clipped (closed : closesValue depth (xs.map Token.ofLexeme) = true)
    (clipped : Clipped xs ys) : closesValue depth (ys.map Token.ofLexeme) = true := by
  induction clipped generalizing depth with
  | nil => exact closed
  | dropped =>
    simp_all [closesValue, Token.ofLexeme, Token.isOpenBracket, Token.isCloseBracket, Token.isPunct, Token.is]
  | shortened left cs =>
    rcases left with rfl | rfl <;>
      simp_all [closesValue, Token.ofLexeme, Token.isOpenBracket, Token.isCloseBracket, Token.isPunct,
        Token.is, Token.isValuePart, Token.isNewline]
  | cons x _ ih =>
    simp only [List.map_cons, closesValue] at closed ⊢
    split
    · next opens =>
      rw [if_pos opens] at closed
      exact ih closed
    next opens =>
    rw [if_neg opens] at closed
    split
    · next closes =>
      rw [if_pos closes, Bool.and_eq_true] at closed
      rw [closed.1, ih closed.2]
      rfl
    next closes =>
    rw [if_neg closes, Bool.and_eq_true] at closed
    rw [closed.1, ih closed.2]
    rfl

theorem isCode_of_closesValue (closed : closesValue depth (xs.map Token.ofLexeme) = true) :
    ∀ x ∈ xs, IsCode x := by
  induction xs generalizing depth with
  | nil => simp
  | cons x xs ih =>
    have punct (mark : (Token.ofLexeme x).kind = .punctuation) : IsCode x := by
      rcases x with ⟨kind, cs⟩
      obtain rfl : kind = .punctuation := mark
      exact ⟨by simp, by simp⟩
    rw [List.forall_mem_cons]
    simp only [List.map_cons, closesValue] at closed
    split at closed
    · next opens => exact ⟨punct (Token.kind_of_isOpenBracket opens), ih closed⟩
    split at closed
    · next closes =>
      rw [Bool.and_eq_true] at closed
      exact ⟨punct (Token.kind_of_isCloseBracket closes), ih closed.2⟩
    · rw [Bool.and_eq_true] at closed
      have part := closed.1
      simp only [Token.isValuePart, Bool.and_eq_true, bne_iff_ne, ne_eq] at part
      refine ⟨⟨part.1.1, ?_⟩, ih closed.2⟩
      rintro rfl
      simp [Token.ofLexeme] at part

end Values

/-- The lexemes of a default value from the space before its mark on, and the text that is read. -/
inductive IsValue : Option String → List (TokenKind × List Char) → Prop
  | none : IsValue none []
  | some {w : List Char} {xs : List (TokenKind × List Char)} (gap : IsGap w)
    (closed : closesValue 0 (xs.map Token.ofLexeme) = true) (plain : ∀ x ∈ xs, x.1 ≠ .nameFunction)
    (solid : ∀ x ∈ xs.head?, x.1 ≠ .whitespace) (filled : Text.allBlank (xs.flatMap piece) = false) :
    IsValue (some (String.ofList (Text.trim (xs.flatMap piece))))
      ((.whitespace, [' ']) :: (.operator, ['=']) :: (.whitespace, ' ' :: w) :: xs)

/-- A run that begins with a line end, a comment or a keyword is no value. -/
theorem not_closesValue {x : TokenKind × List Char} (other : x.1 = .newline ∨ x.1 = .comment ∨ x.1 = .keyword) :
    closesValue 0 ((x :: xs).map Token.ofLexeme) = false := by
  rcases x with ⟨kind, cs⟩
  rcases other with rfl | rfl | rfl <;>
    simp [closesValue, Token.ofLexeme, Token.isOpenBracket, Token.isCloseBracket, Token.isPunct, Token.is,
      Token.isValuePart, Token.isNewline]

theorem not_closesValue_of_atLineEnd {cs : List Char} (ended : atLineEnd cs = true) :
    closesValue 0 ((lexemes .initial cs).map Token.ofLexeme) = false := by
  rcases cs with _ | ⟨c, r⟩
  · simp [atLineEnd] at ended
  · rw [lexemes]
    apply not_closesValue
    left
    rcases atLineEnd_cons_iff.mp ended with rfl | ⟨rfl, s, rfl⟩ <;> rfl

/-- A value begins behind white space on its line. -/
theorem exists_gap {cs : List Char} (closed : closesValue 0 ((lexemes .initial cs).map Token.ofLexeme) = true)
    (filled : Text.allBlank cs = false) :
    ∃ w c r, cs = w ++ c :: r ∧ IsGap w ∧ isBlank c = false ∧
      closesValue 0 ((lexemes .initial (c :: r)).map Token.ofLexeme) = true := by
  rcases cs with _ | ⟨d, s⟩
  · simp [Text.allBlank] at filled
  cases blank : isBlank d with
  | false => exact ⟨[], d, s, rfl, .nil, blank, closed⟩
  | true =>
    have going : atLineEnd (d :: s) = false := by
      cases ended : atLineEnd (d :: s) with
      | false => rfl
      | true => simp [not_closesValue_of_atLineEnd ended] at closed
    have whole := spaces_whole s
    have space := @step_space .initial _ _ blank going
    have gap : IsGap (d :: (spaces s).taken) := by
      have shaped := isShaped_step .initial d s
      rwa [space, IsShaped, if_pos rfl] at shaped
    rw [lexemes, space, show LexState.initial.blank = .initial from rfl] at closed
    rcases rest : (spaces s).rest with _ | ⟨c, r⟩
    · rw [Split.whole, rest, List.append_nil] at whole
      have all : Text.allBlank (d :: s) = true := by
        rw [← whole, Text.allBlank, List.all_eq_true]
        exact fun c member => (gap c member).1
      simp [all] at filled
    · have behind : closesValue 0 ((lexemes .initial (c :: r)).map Token.ofLexeme) = true := by
        simpa [rest, closesValue, Token.ofLexeme, Token.isOpenBracket, Token.isCloseBracket, Token.isPunct,
          Token.is, Token.isValuePart, Token.isNewline] using closed
      refine ⟨d :: (spaces s).taken, c, r, ?_, gap, ?_, behind⟩
      · rw [← rest]
        exact congrArg (d :: ·) whole.symm
      · rcases stop_of_rest_spaces rest with ended | solid
        · simp [not_closesValue_of_atLineEnd ended] at behind
        · exact solid

/-- Code that begins a value is read there as at the beginning of a line. -/
theorem lexemes_within {c : Char} {r : List Char} (solid : isBlank c = false)
    (closed : closesValue 0 ((lexemes .initial (c :: r)).map Token.ofLexeme) = true) :
    lexemes {} (c :: r) = lexemes .initial (c :: r) := by
  have plain (word : (step .initial c r).kind ≠ .comment ∧ (step .initial c r).kind ≠ .keyword) :
      step {} c r = step .initial c r := by
    have remark : c ≠ '%' := by
      rintro rfl
      apply word.1
      rw [step_remark, comment]
      split <;> rfl
    cases letter : isIdentStart c with
    | false =>
      rw [step_code solid remark, step_code solid remark, code, code]
      simp only [letter]
      rfl
    | true =>
      rw [step_of_letter letter, step_of_letter letter, word_plain rfl rfl, word_plain rfl rfl]
      have kind := word.2
      rw [step_of_letter letter, word_plain rfl rfl] at kind
      simp only [wordKind] at kind ⊢
      split at kind
      · exact absurd rfl kind
      · next free =>
        split at kind
        · exact absurd rfl kind
        · next opens =>
          rw [if_neg free, if_neg free, if_neg opens, if_neg (by simp)]
          rfl
  have kinds : (step .initial c r).kind ≠ .comment ∧ (step .initial c r).kind ≠ .keyword := by
    rw [lexemes] at closed
    constructor
    all_goals
      intro kind
      rw [not_closesValue (by simp [kind])] at closed
      cases closed
  rw [lexemes, lexemes, plain kinds]

namespace Lexer

/-- No lexeme of a code text names a function, as no lexeme is `function`. -/
theorem plain_lexemes {st : LexState} {cs : List Char} (plain : st.signature = .none)
    (own : ∀ x ∈ lexemes st cs, IsCode x) : ∀ x ∈ lexemes st cs, x.1 ≠ .nameFunction := by
  fun_induction lexemes st cs with
  | case1 => simp
  | case2 st c r s ih =>
    rw [List.forall_mem_cons] at own ⊢
    have here := plain_step plain own.1
    exact ⟨here.2, ih here.1 own.2⟩

section Clipping

variable {xs ys : List (TokenKind × List Char)} (clipped : Clipped xs ys)
include clipped

theorem Clipped.forall_kind {p : TokenKind → Prop} (all : ∀ x ∈ xs, p x.1) : ∀ y ∈ ys, p y.1 := by
  induction clipped with
  | nil => simp
  | dropped => simp
  | shortened => simpa using all
  | cons x _ ih =>
    rw [List.forall_mem_cons] at all ⊢
    exact ⟨all.1, ih all.2⟩

theorem Clipped.trim_piece : Text.trim (ys.flatMap piece) = Text.trim (xs.flatMap piece) := by
  have tail : ∃ b, Text.allBlank b = true ∧ xs.flatMap piece = ys.flatMap piece ++ b := by
    induction clipped with
    | nil => exact ⟨[], rfl, rfl⟩
    | dropped => exact ⟨['\r'], by decide, rfl⟩
    | shortened left cs =>
      refine ⟨['\r'], by decide, ?_⟩
      rcases left with rfl | rfl <;> simp [piece]
    | cons x _ ih =>
      obtain ⟨b, blank, same⟩ := ih
      exact ⟨b, blank, by rw [List.flatMap_cons, List.flatMap_cons, same, List.append_assoc]⟩
  obtain ⟨b, blank, same⟩ := tail
  rw [same, Text.trim_append_blank blank]

end Clipping

end Lexer

/-- Behind its mark, a value is read as tokens that a default value holds, up to the line feed that ends
its line. -/
theorem ValueText.lexemes_marked (v : ValueText) :
    ∃ xs nl, IsValue (some v.trimmed) xs ∧
      ∀ t, lexemes {} (' ' :: '=' :: ' ' :: (v.text.toList ++ '\n' :: t)) =
        xs ++ (.newline, nl) :: lexemes .initial t := by
  obtain ⟨text, closed, filled⟩ := v
  rw [closesValue_of_lexemes (Token.map_lexeme_tokenize text)] at closed
  obtain ⟨w, c, r, whole, gap, solid, closed⟩ := exists_gap closed filled
  rw [← lexemes_within solid closed] at closed
  have code := isCode_of_closesValue closed
  obtain ⟨xs, nl, rest, clipped⟩ := lexemes_feed rfl code
  have same : Text.trim (xs.flatMap piece) = Text.unix (Text.trim text.toList) := by
    have blank : Text.allBlank w = true := List.all_eq_true.mpr fun d member => (gap d member).1
    rw [clipped.trim_piece, flatMap_piece rfl code, Text.trim_unix, whole, Text.trim_blank_append blank]
  have filled : Text.allBlank (xs.flatMap piece) = false := by
    rw [Bool.eq_false_iff, ne_eq, ← Text.trim_eq_nil_iff, same, Text.unix_eq_nil_iff, Text.trim_eq_nil_iff, filled]
    simp
  have single := IsGap.space
  have marked (t : List Char) :
      Reads [(.whitespace, [' ']), (.operator, ['=']), (.whitespace, ' ' :: w)] (c :: (r ++ '\n' :: t)) := by
    have behind := (Reads.nil (c :: (r ++ '\n' :: t))).space (single.append gap) (by simp) (by simpa using solid)
    exact (behind.equals (by simp)).space single (by simp) (by simp; decide)
  have first : ∀ x ∈ xs.head?, x.1 ≠ .whitespace := by
    rcases xs with _ | ⟨x, xs⟩
    · simp
    · have whole := rest []
      rw [List.cons_append, List.cons_append, lexemes.eq_2, List.cons.injEq] at whole
      rintro y member
      obtain rfl : x = y := by simpa using member
      rw [← whole.1]
      intro space
      rw [isBlank_of_space space] at solid
      cases solid
  have value := IsValue.some gap (closesValue_clipped closed clipped)
    (clipped.forall_kind (p := (· ≠ .nameFunction)) (plain_lexemes rfl code)) first filled
  rw [same] at value
  refine ⟨_, nl, value, fun t => ?_⟩
  have read := marked t
  simp only [Reads, spelled_cons, spelled_nil, List.append_nil, List.cons_append, List.nil_append] at read
  rw [whole, List.append_assoc, List.cons_append, read]
  exact congrArg _ (congrArg _ (congrArg _ (rest t)))

end MatlabOutline
