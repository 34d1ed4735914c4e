import MatlabOutline.Token.Basic
import MatlabOutline.Token.Split

/-!
The lexer. A step reads one lexeme: its first character and a scanned rest, so that a lexeme is
never empty. Lexing is total, and the lexemes of a text concatenate to it (`lexemes_flatten`).
-/

namespace MatlabOutline

/-- Where a signature stands that a `function` keyword has begun. -/
inductive SignaturePart
  /-- No signature, or its name has been read. -/
  | none
  /-- Before the `=` that ends the output arguments. -/
  | outputs
  /-- Before the declared name. -/
  | name
deriving DecidableEq, Repr

/-- What a lexeme depends on beyond the text that follows. -/
structure LexState where
  signature : SignaturePart := .none
  /-- Only white space stands before this point of the line. -/
  lineStart : Bool := false
  /-- An operand ends here, so that `'` transposes it. -/
  afterOperand : Bool := false
  /-- A field access precedes, so that every word is a name. -/
  afterDot : Bool := false
deriving DecidableEq, Repr

namespace LexState

/-- The state at the start of a text and after each line end. -/
def initial : LexState :=
  { lineStart := true }

/-- The state after a lexeme that is no operand. -/
def plain (st : LexState) : LexState :=
  { signature := st.signature }

/-- The state after an operand. -/
def operand (st : LexState) : LexState :=
  { signature := st.signature, afterOperand := true }

/-- The state after white space, which keeps the start of a line. -/
def blank (st : LexState) : LexState :=
  { signature := st.signature, lineStart := st.lineStart }

end LexState

/-- One lexeme after its first character, and the state behind it. -/
structure LexStep where
  kind : TokenKind
  split : Split
  next : LexState
deriving Repr

namespace Lexer

/-- The operators that may take a second character, and that character. -/
def operatorSecond : Char → Option Char
  | '=' | '<' | '>' | '~' => some '='
  | '&' => some '&'
  | '|' => some '|'
  | _ => none

def isOperatorStart (c : Char) : Bool :=
  "=<>~&|+-*/\\^:@?!".toList.contains c

/-- Takes `second` if the text begins with it. -/
def optional (second : Option Char) : List Char → Split
  | [] => ⟨[], []⟩
  | c :: r => if second = some c then ⟨[c], r⟩ else ⟨[], c :: r⟩

/-- Reads on after a `.`. -/
def dot (st : LexState) (r : List Char) : LexStep :=
  match r with
  | '.' :: '.' :: _ => ⟨.comment, Scan.lineBody r, st.plain⟩
  | '\'' :: r' => ⟨.operator, ⟨['\''], r'⟩, st.operand⟩
  | c :: r' =>
    if c.isDigit then ⟨.number, Scan.numberRest '.' r, st.operand⟩
    else if c == '*' || c == '/' || c == '\\' || c == '^' then
      ⟨.operator, ⟨[c], r'⟩, st.plain⟩
    else ⟨.punctuation, ⟨[], r⟩, { st.operand with afterDot := true }⟩
  | [] => ⟨.punctuation, ⟨[], r⟩, { st.operand with afterDot := true }⟩

/-- The kind of a word outside signatures, where `r` follows it. -/
def wordKind (st : LexState) (word : String) (r : List Char) : TokenKind :=
  if isReserved word then .keyword
  else if isBlockWord word && st.lineStart && Scan.endsBlockWord r then .keyword
  else .name

/-- The part of a signature that `word` begins, where `r` follows it. -/
def signatureAfter (word : String) (r : List Char) : SignaturePart :=
  if word == "function" then
    if Scan.signatureHasOutputs 0 r then .outputs else .name
  else .none

/-- Reads on after the first letter of a word. -/
def word (st : LexState) (c : Char) (r : List Char) : LexStep :=
  let body := Scan.run isIdentRest r
  if st.afterDot then ⟨.name, body, st.operand⟩
  else match st.signature with
    | .name => ⟨.nameFunction, body.andThen Scan.dottedRest, { st.operand with signature := .none }⟩
    | .outputs => ⟨.name, body, st.operand⟩
    | .none =>
      let spelled := String.ofList (c :: body.taken)
      ⟨wordKind st spelled body.rest, body,
        { st.operand with signature := signatureAfter spelled body.rest }⟩

/-- Reads on after the first character of an operator. An `=` ends the outputs of a signature. -/
def operator (st : LexState) (c : Char) (r : List Char) : LexStep :=
  let part := if c == '=' && st.signature == .outputs then .name else st.signature
  ⟨.operator, optional (operatorSecond c) r, { st.plain with signature := part }⟩

/-- Reads the lexeme that begins with `c` and goes on in `r`. -/
def step (st : LexState) (c : Char) (r : List Char) : LexStep :=
  if c == '\n' then ⟨.newline, ⟨[], r⟩, .initial⟩
  else if c == '\r' && r.head? == some '\n' then ⟨.newline, ⟨['\n'], r.tail⟩, .initial⟩
  else if isBlank c then ⟨.whitespace, Scan.spaces r, st.blank⟩
  else if c == '%' then
    if st.lineStart && Scan.opensBlockComment r then ⟨.comment, Scan.blockRest r, st.plain⟩
    else ⟨.comment, Scan.lineBody r, st.plain⟩
  else if c == '.' then dot st r
  else if c == '\'' && st.afterOperand then ⟨.operator, ⟨[], r⟩, st.operand⟩
  else if c == '\'' || c == '"' then ⟨.string, Scan.stringBody c r, st.plain⟩
  else if c.isDigit then ⟨.number, Scan.numberRest c r, st.operand⟩
  else if isIdentStart c then word st c r
  else if c == ')' || c == ']' || c == '\x7d' then ⟨.punctuation, ⟨[], r⟩, st.operand⟩
  else if c == '(' || c == '[' || c == '\x7b' || c == ',' || c == ';' then
    ⟨.punctuation, ⟨[], r⟩, st.plain⟩
  else if isOperatorStart c then operator st c r
  else ⟨.text, ⟨[], r⟩, st.plain⟩

theorem optional_whole (second : Option Char) (cs : List Char) :
    (optional second cs).whole = cs := by
  fun_cases optional second cs <;> simp

theorem dot_whole (st : LexState) (r : List Char) : (dot st r).split.whole = r := by
  fun_cases dot st r <;> simp [Scan.lineBody_whole, Scan.numberRest_whole]

theorem word_whole (st : LexState) (c : Char) (r : List Char) :
    (word st c r).split.whole = r := by
  have body := Scan.run_whole isIdentRest r
  fun_cases word st c r <;>
    simpa [Split.whole_andThen, Scan.dottedRest_whole] using body

theorem operator_whole (st : LexState) (c : Char) (r : List Char) :
    (operator st c r).split.whole = r := by
  simp [operator, optional_whole]

/-- A step loses no character. -/
theorem step_whole (st : LexState) (c : Char) (r : List Char) : (step st c r).split.whole = r := by
  fun_cases step st c r
  case case2 _ feed =>
    rcases r with _ | ⟨d, r⟩ <;> simp_all
  all_goals simp [Scan.spaces_whole, Scan.blockRest_whole, Scan.lineBody_whole, dot_whole,
    Scan.stringBody_whole, Scan.numberRest_whole, word_whole, operator_whole]

/-- The lexemes of a text with their kinds, from state `st`. -/
def lexemes (st : LexState) (cs : List Char) : List (TokenKind × List Char) :=
  match cs with
  | [] => []
  | c :: r =>
    let s := step st c r
    (s.kind, c :: s.split.taken) :: lexemes s.next s.split.rest
termination_by cs.length
decreasing_by
  have := Split.length_rest_le (step_whole st c r)
  simp only [List.length_cons]
  omega

/-- The lexemes of a text concatenate to it. -/
theorem lexemes_flatten (st : LexState) (cs : List Char) :
    ((lexemes st cs).map Prod.snd).flatten = cs := by
  fun_induction lexemes st cs with
  | case1 => rfl
  | case2 st c r s ih =>
    have whole : s.split.taken ++ s.split.rest = r := step_whole st c r
    simp [ih, whole]

end Lexer

namespace Token

/-- Gives each lexeme its line, the first of them `line`. Lines are counted without a bound here;
`NumberedToken.place` counts them in 32 bits. -/
def place (line : Nat) : List (TokenKind × List Char) → List Token
  | [] => []
  | (kind, cs) :: r => ⟨kind, String.ofList cs, line⟩ :: place (line + Text.feeds cs) r

end Token

/-- The kinds and texts of the pieces of `source`, in order. -/
def segments (source : String) : List (TokenKind × String) :=
  (Lexer.lexemes .initial source.toList).map fun (kind, cs) => (kind, String.ofList cs)

/-- The tokens of `source`. The first is on line 1. -/
def tokenize (source : String) : List Token :=
  Token.place 1 (Lexer.lexemes .initial source.toList)

end MatlabOutline
