import MatlabOutline.Token.Lexer

/-!
Tokens with line numbers of 32 bits. A text of `2 ^ 32 - 1` line ends or more has lines that no such
number counts; what a lexer does then depends on whether its sums are checked. On every other text the
tokens are those of `tokenize`, which counts without a bound.
-/

namespace MatlabOutline

/-- What becomes of a sum that does not fit 32 bits. -/
inductive Overflow
  /-- Sums are checked, and the program stops. -/
  | stops
  /-- Counting begins again at zero. -/
  | wraps
deriving DecidableEq, Repr

/-- The sum of two numbers, if the program goes on with one. -/
def Overflow.add (o : Overflow) (a b : UInt32) : Option UInt32 :=
  match o with
  | stops => if a.toNat + b.toNat < UInt32.size then some (a + b) else none
  | wraps => some (a + b)

structure NumberedToken where
  kind : TokenKind
  text : String
  /-- The line on which the token begins, counted from 1. -/
  line : UInt32
deriving DecidableEq, Repr

namespace NumberedToken

/-- The token with a line that has no bound. -/
def token (t : NumberedToken) : Token :=
  ⟨t.kind, t.text, t.line.toNat⟩

def isNewline (t : NumberedToken) : Bool :=
  t.kind == .newline

def concat (ts : List NumberedToken) : String :=
  String.join (ts.map text)

/-- The line on which the token ends. -/
def endLine (o : Overflow) (t : NumberedToken) : Option UInt32 :=
  if t.isNewline then some t.line else o.add t.line (.ofNat (Text.feeds t.text.toList))

/-- Gives each lexeme its line, the first of them `line`. The line behind the last one is counted
too. -/
def place (o : Overflow) (line : UInt32) : List (TokenKind × List Char) → Option (List NumberedToken)
  | [] => some []
  | (kind, cs) :: r => do
    let next ← o.add line (.ofNat (Text.feeds cs))
    let further ← place o next r
    return ⟨kind, String.ofList cs, line⟩ :: further

end NumberedToken

/-- The tokens of `source` with numbered lines, if the program does not stop on the way. -/
def numberedTokens (o : Overflow) (source : String) : Option (List NumberedToken) :=
  NumberedToken.place o 1 (Lexer.lexemes .initial source.toList)

end MatlabOutline
