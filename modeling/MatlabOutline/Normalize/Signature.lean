import MatlabOutline.Token.Lexer

/-!
Completion of signatures: every declared function name is followed by a parameter list.
-/

namespace MatlabOutline

/-- Whether a parameter list comes next, after optional white space. -/
def startsParameters (ts : List Token) : Bool :=
  (ts.dropWhile Token.isWhitespace).head?.any (·.isPunct "(")

/-- The texts of the tokens, with an empty parameter list after each declared name that lacks
one. -/
def signatureTexts : List Token → List String
  | [] => []
  | t :: r =>
    if t.kind == .nameFunction && !startsParameters r then t.text :: "()" :: signatureTexts r
    else t.text :: signatureTexts r

/-- Gives each `function` declaration of `code` a parameter list. -/
def completeSignatures (code : String) : String :=
  String.join (signatureTexts (tokenize code))

end MatlabOutline
