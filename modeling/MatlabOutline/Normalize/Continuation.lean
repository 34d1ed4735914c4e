import MatlabOutline.Token.Lexer

/-!
Joining of continued lines.
-/

namespace MatlabOutline

/-- Drops each continuation marker and the line end right after it; `joined` says that a marker
comes right before. -/
def dropContinuations (joined : Bool) : List Token → List Token
  | [] => []
  | t :: r =>
    if t.isContinuation then dropContinuations true r
    else if joined && t.isNewline then dropContinuations false r
    else t :: dropContinuations false r

/-- Joins each line of `code` that ends in a continuation marker with the next one. -/
def joinContinuedLines (code : String) : String :=
  Token.concat (dropContinuations false (tokenize code))

end MatlabOutline
