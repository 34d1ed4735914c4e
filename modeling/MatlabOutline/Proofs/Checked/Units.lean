import MatlabOutline.SourceUnit
import MatlabOutline.Proofs.Checked.LastLine
import MatlabOutline.Proofs.Lexing.LineNumbers

/-!
Reading a unit with fewer than `2 ^ 32 - 2` line ends comes to no operation that is out of range and to no
sum that overflows (`parseUnit_inRange`).
-/

namespace MatlabOutline

namespace Checked

/-- The content of a quoted string, which begins behind the first byte. -/
def unquote (s : String) : Option String :=
  match s.toList with
  | [] => some ""
  | quote :: _ =>
    (onFrom 1 s.toList).map fun inner =>
      String.ofList (undouble quote (if inner.getLast? = some quote then inner.dropLast else inner))

/-- Passes a block with `depth` blocks and `brackets` brackets open. -/
def skipBlockFrom (depth brackets : Nat) (passed : List Token) : List Token → Option (Bool × Cursor)
  | [] => some (false, ⟨passed, []⟩)
  | t :: r =>
    if t.isKeyword "end" && brackets == 0 then
      (minus depth 1).bind fun outer =>
        if outer = 0 then some (true, ⟨t :: passed, r⟩)
        else skipBlockFrom outer brackets (t :: passed) r
    else if Cursor.isOpener t then skipBlockFrom (depth + 1) brackets (t :: passed) r
    else if t.isOpenBracket then skipBlockFrom depth (brackets + 1) (t :: passed) r
    else if t.isCloseBracket then skipBlockFrom depth (brackets - 1) (t :: passed) r
    else skipBlockFrom depth brackets (t :: passed) r

def skipBlock (c : Cursor) : Option (Bool × Cursor) :=
  skipBlockFrom 1 0 c.passed c.rest

/-- The texts between the commas of a validator list, with `depth` brackets open. -/
def validatorsFrom (current : String) (depth : Nat) (passed : List Token) :
    List Token → Option (List String × Cursor)
  | [] => some ([current], ⟨passed, []⟩)
  | t :: r =>
    if t.isNewline then
      if depth = 0 then some ([current], ⟨passed, t :: r⟩)
      else validatorsFrom (current ++ " ") depth (t :: passed) r
    else if t.isCloseBracket && depth == 0 then some ([current], ⟨t :: passed, r⟩)
    else if t.isPunct "," && depth == 0 then
      (validatorsFrom "" depth (t :: passed) r).map fun (further, c) => (current :: further, c)
    else if t.isOpenBracket then validatorsFrom (current ++ t.text) (depth + 1) (t :: passed) r
    else if t.isCloseBracket then
      (minus depth 1).bind fun outer => validatorsFrom (current ++ t.text) outer (t :: passed) r
    else if t.kind == .comment then validatorsFrom current depth (t :: passed) r
    else validatorsFrom (current ++ t.text) depth (t :: passed) r

def validators (c : Cursor) : Option (List String × Cursor) :=
  (validatorsFrom "" 0 c.passed c.rest).map fun (texts, c') =>
    ((texts.map fun s => String.ofList (Text.trim s.toList)).filter (!·.isEmpty), c')

/-- Sets what is said of the argument at `i`. -/
def specifyAt (args : Arguments) (i : Nat) (spec : ValueSpec) : Option Arguments :=
  (args[i]?).map fun a => args.set i { a with spec }

/-- Sets what is said of the argument called `name`, which is put at the end if there is none. -/
def specify (args : Arguments) (name : String) (spec : ValueSpec) : Option Arguments :=
  match args.findIdx? (·.name == name) with
  | some i => specifyAt args i spec
  | none =>
    (minus (args.length + 1) 1).bind fun last => specifyAt (args ++ [{ name, spec := {} }]) last spec

/-- A string begins with a quote, which takes one byte. -/
theorem unquote_eq {s : String} (quoted : TokenKind.string.Admits s.toList) :
    unquote s = some (MatlabOutline.unquote s) := by
  unfold unquote MatlabOutline.unquote
  rcases text : s.toList with _ | ⟨quote, inner⟩
  · rfl
  · have single : size [quote] = 1 := by
      rw [text] at quoted
      have mark : quote = '\'' ∨ quote = '"' := by simpa [TokenKind.Admits] using quoted
      rcases mark with rfl | rfl <;> rfl
    have behind := onFrom_append [quote] inner
    rw [single, List.singleton_append] at behind
    rw [behind]
    rfl

/-- The depth never falls below zero, since a block ends where it reaches zero. -/
theorem skipBlockFrom_eq (inner brackets : Nat) (passed ts : List Token) :
    skipBlockFrom (inner + 1) brackets passed ts =
      some (Cursor.skipBlockFrom inner brackets passed ts) := by
  fun_induction Cursor.skipBlockFrom inner brackets passed ts with
  | case1 => rfl
  | case2 brackets passed t r ending =>
    rw [skipBlockFrom, if_pos ending]
    rfl
  | case3 brackets passed t r ending n ih =>
    rw [skipBlockFrom, if_pos ending, minus_eq rfl, Option.bind_some, if_neg (Nat.succ_ne_zero n), ih]
  | case4 inner brackets passed t r other opener ih => rw [skipBlockFrom, if_neg other, if_pos opener, ih]
  | case5 inner brackets passed t r other word opened ih =>
    rw [skipBlockFrom, if_neg other, if_neg word, if_pos opened, ih]
  | case6 inner brackets passed t r other word flat closed ih =>
    rw [skipBlockFrom, if_neg other, if_neg word, if_neg flat, if_pos closed, ih]
  | case7 inner brackets passed t r other word flat plain ih =>
    rw [skipBlockFrom, if_neg other, if_neg word, if_neg flat, if_neg plain, ih]

theorem skipBlock_eq (c : Cursor) : skipBlock c = some c.skipBlock :=
  skipBlockFrom_eq 0 0 c.passed c.rest

/-- A closing bracket is no other mark. -/
theorem other_of_close {t : Token} (closed : t.isCloseBracket = true) :
    t.isPunct "," = false ∧ t.isOpenBracket = false := by
  simp only [Token.isCloseBracket, Token.isOpenBracket, Token.isPunct, Token.is, Bool.or_eq_true,
    Bool.and_eq_true, beq_iff_eq] at closed ⊢
  rcases closed with (⟨-, text⟩ | ⟨-, text⟩) | ⟨-, text⟩ <;> simp [text]

/-- The depth never falls below zero, since a list of validators ends at a bracket that it did not
open. -/
theorem validatorsFrom_eq (current : String) (depth : Nat) (passed ts : List Token) :
    validatorsFrom current depth passed ts = some (Cursor.validatorsFrom current depth passed ts) := by
  fun_induction Cursor.validatorsFrom current depth passed ts with
  | case1 => rfl
  | case2 current passed t r line => simp [validatorsFrom, line]
  | case3 current depth passed t r line inside ih => simp [validatorsFrom, line, inside, ih]
  | case4 current passed t r line closed => simp [validatorsFrom, line, closed]
  | case5 current passed t r line closed outer ih =>
    obtain ⟨comma, opened⟩ := other_of_close closed
    simp [validatorsFrom, line, closed, comma, opened, minus, ih]
  | case6 current depth passed t r line flat comma further c read ih =>
    simp_all [validatorsFrom]
  | case7 current depth passed t r line flat comma opened ih =>
    simp_all [validatorsFrom]
  | case8 current depth passed t r line flat comma other comment ih =>
    simp_all [validatorsFrom]
  | case9 current depth passed t r line flat comma other plain ih =>
    simp_all [validatorsFrom]

theorem validators_eq (c : Cursor) : validators c = some c.validators := by
  rw [validators, validatorsFrom_eq]
  rfl

theorem specifyAt_cons (a : Argument) (args : Arguments) (i : Nat) (spec : ValueSpec) :
    specifyAt (a :: args) (i + 1) spec = (specifyAt args i spec).map (a :: ·) := by
  simp [specifyAt, Function.comp_def]

theorem specify_eq (args : Arguments) (name : String) (spec : ValueSpec) :
    specify args name spec = some (args.specify name spec) := by
  have last (n : Nat) : minus (n + 1) 1 = some n := minus_eq rfl
  unfold Arguments.specify
  induction args with
  | nil => rfl
  | cons a args ih =>
    rw [specify, List.findIdx?_cons, Arguments.modify]
    by_cases here : a.name = name
    · simp [here, specifyAt]
    · rw [specify] at ih
      rw [if_neg (by simpa using here), if_neg here]
      rcases found : args.findIdx? (·.name == name) with _ | i
      · simp only [found, last, Option.bind_some, Option.map_none, List.cons_append,
          List.length_cons, specifyAt_cons] at ih ⊢
        rw [ih]
        rfl
      · simp only [found, Option.map_some, specifyAt_cons] at ih ⊢
        rw [ih]
        rfl

end Checked

/-- No operation on the way from a text to what it declares is out of range, and no line number
overflows: each gives, with its cuts, indices, differences and sums checked, what it gives without. The
reader can stand anywhere in the normal form, meet any of its tokens there, and have any comments to
clean. -/
structure ReadsInRange (text : String) : Prop where
  lexing : Checked.tokenize text = some (tokenize text)
  header : Checked.removeHeader text = some (removeHeader text)
  /-- The line ends in the part of the text above what is left without its header. -/
  offset : Checked.headerLines text = some (headerLines text)
  normalization : Checked.normalize (removeHeader text) = some (normalize (removeHeader text))
  relexing : Checked.tokenize (normalize (removeHeader text)) =
    some (tokenize (normalize (removeHeader text)))
  ends : ∀ t ∈ tokenize (normalize (removeHeader text)), Checked.endLine t = some t.endLine
  /-- The line of the original text that is reported for a place. -/
  places : ∀ c : Cursor, c.tokens = tokenize (normalize (removeHeader text)) →
    Checked.plus c.line (headerLines text) = some (c.line + headerLines text)
  strings : ∀ t ∈ tokenize (normalize (removeHeader text)), t.kind = .string →
    Checked.unquote t.text = some (unquote t.text)
  blocks : ∀ c : Cursor, c.tokens = tokenize (normalize (removeHeader text)) →
    Checked.skipBlock c = some c.skipBlock
  validators : ∀ c : Cursor, c.tokens = tokenize (normalize (removeHeader text)) →
    Checked.validators c = some c.validators
  arguments : ∀ (args : Arguments) (name : String) (spec : ValueSpec),
    Checked.specify args name spec = some (args.specify name spec)
  comments : ∀ comments : List String,
    Checked.ofComments comments = some (Docstring.ofComments comments)
  /-- The entries of a block that the reader is at, with their docstrings. -/
  entries : ∀ (r : Reader) (block : BlockKind) (dotted : Bool),
    r.cursor.tokens = tokenize (normalize (removeHeader text)) →
    Checked.entries block dotted r = some (r.entries block dotted)

/-- With fewer than `2 ^ 32 - 2` line ends the line below each token has a number. -/
theorem numbered_tokenize {source : String} (few : Text.feeds source.toList < UInt32.size - 2) :
    Checked.Numbered (tokenize source) := by
  intro t member
  have bound := endLine_le_of_mem_tokenize member
  omega

theorem line_le_of_tokens {source : String} {c : Cursor} (inside : c.tokens = tokenize source) :
    c.line ≤ 1 + Text.feeds source.toList := by
  rcases c.line_cases with first | ⟨t, member, line⟩
  · omega
  · have ends := endLine_le_of_mem_tokenize (inside ▸ member)
    have begins := t.line_le_endLine
    omega

/-- Reading a unit with fewer than `2 ^ 32 - 2` line ends comes to no operation that is out of range and
to no sum that overflows. -/
theorem parseUnit_inRange {text : String} (few : Text.feeds text.toList < UInt32.size - 2) :
    ReadsInRange text := by
  have parts := headerLines_add_feeds text
  have normal := feeds_normalize_le (removeHeader text)
  have numbered : Checked.Numbered (tokenize (normalize (removeHeader text))) :=
    numbered_tokenize (by omega)
  exact {
    lexing := Checked.tokenize_eq (by omega)
    header := Checked.removeHeader_eq (by omega)
    offset := Checked.headerLines_eq (by omega)
    normalization := Checked.normalize_eq (by omega)
    relexing := Checked.tokenize_eq (by omega)
    ends := fun t member => numbered.endLine_eq member
    places := fun c inside => by
      have line := line_le_of_tokens inside
      apply Checked.plus_eq
      omega
    strings := fun t member string => Checked.unquote_eq (string ▸ admits_of_mem_tokenize member)
    blocks := fun c _ => Checked.skipBlock_eq c
    validators := fun c _ => Checked.validators_eq c
    arguments := Checked.specify_eq
    comments := Checked.ofComments_eq
    entries := fun r block dotted inside => Checked.entries_eq numbered block dotted inside }

/-- A class whose text has a header, a joined line and comments around its entries is read in range. -/
theorem parseUnit_inRange_class :
    ReadsInRange "% Note.

classdef C
properties
x ...
= 1 % One.
% Two.
y
end
end
" :=
  parseUnit_inRange (by decide +kernel)

namespace Checked

/-- The line end after the last line that has a number cannot be counted. -/
theorem tokenize_nameBelow {n : Nat} (full : n + 1 = UInt32.size) : tokenize (nameBelow n) = none := by
  have stops := (numberedTokens_nameBelow full).1
  rw [numberedTokens] at stops
  simp only [tokenize, lexemes_eq, stops, Option.bind_eq_bind, Option.bind_some, Option.bind_none]

end Checked

/-- Two texts with fewer than `2 ^ 32` line ends on which a sum overflows. With one less lexing stops
behind the last line end. With two less a declaration can stand on the last line that has a number, and
the line below it is asked for. -/
theorem parseUnit_overflows :
    (Text.feeds (nameBelow 4294967295).toList < UInt32.size ∧ Checked.tokenize (nameBelow 4294967295) = none) ∧
      Text.feeds (argumentBelow 4294967292).toList = UInt32.size - 2 ∧
      ∃ r : Reader,
        r.cursor.tokens = tokenize (normalize (removeHeader (argumentBelow 4294967292))) ∧
        r.cursor.passed.reverse = blockOpening ∧ Checked.entries .arguments true r = none :=
  ⟨⟨by rw [feeds_nameBelow]; decide, Checked.tokenize_nameBelow rfl⟩,
    (feeds_argumentBelow 4294967292).trans rfl, exists_entries_argumentBelow rfl⟩

end MatlabOutline
