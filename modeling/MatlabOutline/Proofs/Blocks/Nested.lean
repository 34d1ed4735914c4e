import MatlabOutline.Declaration.Phrase
import MatlabOutline.Proofs.Normalize.ParameterLists

/-!
Well nested runs of tokens: each opening keyword has its `end`, and brackets are balanced, inside of
which `end` is an index. Passing over a block goes through such a run and opens and closes nothing
(`Cursor.skipBlockFrom_nested`).
-/

namespace MatlabOutline

/-- A reserved word that opens a block closed by `end`. -/
def Token.opensBlock (t : Token) : Bool :=
  t.kind == .keyword && openingWords.contains t.text

/-- A run with balanced brackets and none of the opening keywords. It may hold `end`. -/
inductive Enclosed (opens : Token → Bool) : List Token → Prop
  | nil : Enclosed opens []
  | plain {t : Token} {g : List Token} : t.isOpenBracket = false → t.isCloseBracket = false →
      opens t = false → Enclosed opens g → Enclosed opens (t :: g)
  | group {o c : Token} {inner g : List Token} : o.isOpenBracket = true → Enclosed opens inner →
      c.isCloseBracket = true → Enclosed opens g → Enclosed opens (o :: (inner ++ c :: g))

/-- A run in which every opening keyword has its `end` outside brackets, and brackets are
balanced. -/
inductive Nested (opens : Token → Bool) : List Token → Prop
  | nil : Nested opens []
  | plain {t : Token} {b : List Token} : t.isOpenBracket = false → t.isCloseBracket = false →
      opens t = false → t.isKeyword "end" = false → Nested opens b → Nested opens (t :: b)
  | group {o c : Token} {g b : List Token} : o.isOpenBracket = true → Enclosed opens g →
      c.isCloseBracket = true → Nested opens b → Nested opens (o :: (g ++ c :: b))
  | block {k e : Token} {inner b : List Token} : opens k = true → Nested opens inner →
      e.isKeyword "end" = true → Nested opens b → Nested opens (k :: (inner ++ e :: b))

theorem Enclosed.congr {opens opens' : Token → Bool} {g : List Token} (enclosed : Enclosed opens g)
    (same : ∀ t ∈ g, opens' t = opens t) : Enclosed opens' g := by
  induction enclosed with
  | nil => exact .nil
  | plain opened closed word _ ih =>
    simp only [List.forall_mem_cons] at same
    exact .plain opened closed (by rw [same.1, word]) (ih same.2)
  | group opened _ closed _ innerIH restIH =>
    simp only [List.forall_mem_cons, List.forall_mem_append] at same
    exact .group opened (innerIH same.2.1) closed (restIH same.2.2.2)

/-- Only the opening keywords in a run matter for how it is nested. -/
theorem Nested.congr {opens opens' : Token → Bool} {b : List Token} (nested : Nested opens b)
    (same : ∀ t ∈ b, opens' t = opens t) : Nested opens' b := by
  induction nested with
  | nil => exact .nil
  | plain opened closed word ends _ ih =>
    simp only [List.forall_mem_cons] at same
    exact .plain opened closed (by rw [same.1, word]) ends (ih same.2)
  | group opened enclosed closed _ ih =>
    simp only [List.forall_mem_cons, List.forall_mem_append] at same
    exact .group opened (enclosed.congr same.2.1) closed (ih same.2.2.2)
  | block word _ ends _ innerIH restIH =>
    simp only [List.forall_mem_cons, List.forall_mem_append] at same
    exact .block (by rw [same.1, word]) (innerIH same.2.1) ends (restIH same.2.2.2)

theorem Enclosed.append {opens : Token → Bool} {g h : List Token} (first : Enclosed opens g)
    (second : Enclosed opens h) : Enclosed opens (g ++ h) := by
  induction first with
  | nil => exact second
  | plain opened closed word _ ih => exact .plain opened closed word ih
  | group opened inner closed _ _ ih =>
    rw [List.cons_append, List.append_assoc]
    exact .group opened inner closed ih

theorem Nested.append {opens : Token → Bool} {ts us : List Token} (first : Nested opens ts)
    (second : Nested opens us) : Nested opens (ts ++ us) := by
  induction first with
  | nil => exact second
  | plain opened closed word ends _ ih => exact .plain opened closed word ends ih
  | group opened enclosed closed _ ih =>
    rw [List.cons_append, List.append_assoc]
    exact .group opened enclosed closed ih
  | block word inner ends _ _ ih =>
    rw [List.cons_append, List.append_assoc]
    exact .block word inner ends ih

namespace Token

theorem kind_of_isKeyword {t : Token} {word : String} (keyword : t.isKeyword word = true) :
    t.kind = .keyword := by
  simp only [isKeyword, is, Bool.and_eq_true, beq_iff_eq] at keyword
  exact keyword.1

theorem kind_of_isPunct {t : Token} {mark : String} (punct : t.isPunct mark = true) :
    t.kind = .punctuation := by
  simp only [isPunct, is, Bool.and_eq_true, beq_iff_eq] at punct
  exact punct.1

theorem kind_of_isOpenBracket {t : Token} (bracket : t.isOpenBracket = true) :
    t.kind = .punctuation := by
  simp only [isOpenBracket, Bool.or_eq_true] at bracket
  rcases bracket with (mark | mark) | mark <;> exact kind_of_isPunct mark

theorem kind_of_isCloseBracket {t : Token} (bracket : t.isCloseBracket = true) :
    t.kind = .punctuation := by
  simp only [isCloseBracket, Bool.or_eq_true] at bracket
  rcases bracket with (mark | mark) | mark <;> exact kind_of_isPunct mark

theorem not_isKeyword_of_kind {t : Token} (kind : t.kind ≠ .keyword) (word : String) :
    t.isKeyword word = false := by
  simp [isKeyword, is, kind]

theorem isOpenBracket_of_isCloseBracket {t : Token} (bracket : t.isCloseBracket = true) :
    t.isOpenBracket = false := by
  simp only [isCloseBracket, isPunct, is, Bool.or_eq_true, Bool.and_eq_true, beq_iff_eq] at bracket
  rcases bracket with (⟨kind, text⟩ | ⟨kind, text⟩) | ⟨kind, text⟩ <;>
    simp [isOpenBracket, isPunct, is, kind, text]

end Token

namespace Cursor

theorem not_isOpener_of_kind {t : Token} (kind : t.kind ≠ .keyword) : isOpener t = false := by
  simp [isOpener, kind]

theorem not_end_of_isOpener {t : Token} (word : isOpener t = true) : t.isKeyword "end" = false := by
  by_cases ends : t.text = "end"
  · rw [isOpener, ends] at word
    simp [openingWords] at word
  · simp [Token.isKeyword, Token.is, ends]

section SkipBlock

variable (inner brackets : Nat) (passed rest : List Token)

theorem skipBlockFrom_plain {t : Token} (ends : t.isKeyword "end" = false ∨ brackets ≠ 0)
    (word : isOpener t = false) (opens : t.isOpenBracket = false) (closes : t.isCloseBracket = false) :
    skipBlockFrom inner brackets passed (t :: rest) =
      skipBlockFrom inner brackets (t :: passed) rest := by
  have first : (t.isKeyword "end" && brackets == 0) = false := by
    rcases ends with other | inside
    · simp [other]
    · simp [inside]
  rw [skipBlockFrom.eq_def]
  simp [first, word, opens, closes]

theorem skipBlockFrom_open {t : Token} (opens : t.isOpenBracket = true) :
    skipBlockFrom inner brackets passed (t :: rest) =
      skipBlockFrom inner (brackets + 1) (t :: passed) rest := by
  have kind : t.kind ≠ .keyword := by simp [Token.kind_of_isOpenBracket opens]
  rw [skipBlockFrom.eq_def]
  simp [Token.not_isKeyword_of_kind kind, not_isOpener_of_kind kind, opens]

theorem skipBlockFrom_close {t : Token} (closes : t.isCloseBracket = true) :
    skipBlockFrom inner brackets passed (t :: rest) =
      skipBlockFrom inner (brackets - 1) (t :: passed) rest := by
  have kind : t.kind ≠ .keyword := by simp [Token.kind_of_isCloseBracket closes]
  rw [skipBlockFrom.eq_def]
  simp [Token.not_isKeyword_of_kind kind, not_isOpener_of_kind kind, closes,
    Token.isOpenBracket_of_isCloseBracket closes]

theorem skipBlockFrom_word {t : Token} (word : isOpener t = true) :
    skipBlockFrom inner brackets passed (t :: rest) =
      skipBlockFrom (inner + 1) brackets (t :: passed) rest := by
  rw [skipBlockFrom.eq_def]
  simp [not_end_of_isOpener word, word]

theorem skipBlockFrom_end {t : Token} (ends : t.isKeyword "end" = true) :
    skipBlockFrom (inner + 1) 0 passed (t :: rest) = skipBlockFrom inner 0 (t :: passed) rest := by
  rw [skipBlockFrom.eq_def]
  simp [ends]

end SkipBlock

/-- Reading token by token with two counts, of the blocks and of the brackets that are open. An `end` closes a
block outside brackets only; inside of them nothing is said of opening keywords. -/
structure CountsBlocks {α : Type} (read : Nat → Nat → List Token → List Token → α) : Prop where
  plain (blocks brackets : Nat) (passed rest : List Token) {t : Token} :
    t.isKeyword "end" = false ∨ brackets ≠ 0 → isOpener t = false → t.isOpenBracket = false →
      t.isCloseBracket = false → read blocks brackets passed (t :: rest) = read blocks brackets (t :: passed) rest
  openBracket (blocks brackets : Nat) (passed rest : List Token) {t : Token} : t.isOpenBracket = true →
    read blocks brackets passed (t :: rest) = read blocks (brackets + 1) (t :: passed) rest
  closeBracket (blocks brackets : Nat) (passed rest : List Token) {t : Token} : t.isCloseBracket = true →
    read blocks (brackets + 1) passed (t :: rest) = read blocks brackets (t :: passed) rest
  opener (blocks : Nat) (passed rest : List Token) {t : Token} : isOpener t = true →
    read blocks 0 passed (t :: rest) = read (blocks + 1) 0 (t :: passed) rest
  ends (blocks : Nat) (passed rest : List Token) {t : Token} : t.isKeyword "end" = true →
    read (blocks + 1) 0 passed (t :: rest) = read blocks 0 (t :: passed) rest

theorem countsBlocks_skipBlockFrom : CountsBlocks skipBlockFrom where
  plain := skipBlockFrom_plain
  openBracket := skipBlockFrom_open
  closeBracket blocks brackets passed rest _ closes := skipBlockFrom_close blocks (brackets + 1) passed rest closes
  opener blocks passed rest _ word := skipBlockFrom_word blocks 0 passed rest word
  ends := skipBlockFrom_end

namespace CountsBlocks

variable {α : Type} {read : Nat → Nat → List Token → List Token → α} (counts : CountsBlocks read)
include counts

theorem enclosed {g : List Token} (enclosed : Enclosed isOpener g) (blocks brackets : Nat)
    (passed rest : List Token) :
    read blocks (brackets + 1) passed (g ++ rest) = read blocks (brackets + 1) (g.reverse ++ passed) rest := by
  induction enclosed generalizing brackets passed rest with
  | nil => rfl
  | plain opens closes word _ ih =>
    rw [List.cons_append, counts.plain _ _ _ _ (.inr (by omega)) word opens closes, ih]
    simp
  | group opens _ closes _ innerIH restIH =>
    rw [List.cons_append, List.append_assoc, counts.openBracket _ _ _ _ opens, innerIH, List.cons_append,
      counts.closeBracket _ _ _ _ closes, restIH]
    simp

/-- A well nested run leaves both counts as they were. -/
theorem nested {b : List Token} (nested : Nested isOpener b) (blocks : Nat) (passed rest : List Token) :
    read blocks 0 passed (b ++ rest) = read blocks 0 (b.reverse ++ passed) rest := by
  induction nested generalizing blocks passed rest with
  | nil => rfl
  | plain opens closes word ends _ ih =>
    rw [List.cons_append, counts.plain _ _ _ _ (.inl ends) word opens closes, ih]
    simp
  | group opens enclosed closes _ ih =>
    rw [List.cons_append, List.append_assoc, counts.openBracket _ _ _ _ opens, counts.enclosed enclosed,
      List.cons_append, counts.closeBracket _ _ _ _ closes, ih]
    simp
  | block word _ ends _ innerIH restIH =>
    rw [List.cons_append, List.append_assoc, counts.opener _ _ _ word, innerIH, List.cons_append,
      counts.ends _ _ _ ends, restIH]
    simp

end CountsBlocks

/-- A well nested run neither closes the block that is passed over nor leaves anything open. -/
theorem skipBlockFrom_nested {b : List Token} (nested : Nested isOpener b) (inner : Nat)
    (passed rest : List Token) :
    skipBlockFrom inner 0 passed (b ++ rest) =
      skipBlockFrom inner 0 (b.reverse ++ passed) rest :=
  countsBlocks_skipBlockFrom.nested nested inner passed rest

/-- A block with a well nested body is passed over through its `end`. -/
theorem skipBlock_nested {body : List Token} (nested : Nested isOpener body) {k : Token}
    (ends : k.isKeyword "end" = true) (passed tail : List Token) :
    skipBlock ⟨passed, body ++ k :: tail⟩ = (true, ⟨k :: (body.reverse ++ passed), tail⟩) := by
  rw [skipBlock, skipBlockFrom_nested nested, skipBlockFrom.eq_def]
  simp [ends]

/-- Without an `end` the block ends with the input. -/
theorem skipBlock_unended {body : List Token} (nested : Nested isOpener body) (passed : List Token) :
    skipBlock ⟨passed, body⟩ = (false, ⟨body.reverse ++ passed, []⟩) := by
  have whole := skipBlockFrom_nested nested 0 passed []
  rw [List.append_nil] at whole
  rw [skipBlock, whole, skipBlockFrom]

end Cursor

end MatlabOutline
