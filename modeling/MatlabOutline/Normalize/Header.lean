import MatlabOutline.Token.Lexer

/-!
The header of a source text: the blank and comment-only lines at its top.
-/

namespace MatlabOutline

/-- A token that a header may hold. -/
def Token.isHeader (t : Token) : Bool :=
  t.isSpacing || t.kind == .comment

/-- The tokens from the first line with a significant one, where `line` are the tokens of the
current line so far. -/
def dropHeader (line : List Token) : List Token → List Token
  | [] => []
  | t :: r =>
    if t.isNewline then dropHeader [] r
    else if t.isHeader then dropHeader (line ++ [t]) r
    else line ++ t :: r

/-- Removes the header of `code`. -/
def removeHeader (code : String) : String :=
  Token.concat (dropHeader [] (tokenize code))

/-- The number of line ends in the header of `code`. -/
def headerLines (code : String) : Nat :=
  Text.feeds code.toList - Text.feeds (removeHeader code).toList

end MatlabOutline
