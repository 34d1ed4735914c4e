import MatlabOutline.Token.Lexer

/-!
Method declarations without a body. In a `methods` block they are written as functions that end
on their own line, so that every method of a class has a matching `end`.
-/

namespace MatlabOutline

/-- Cuts a run of tokens after each line end. -/
def tokenLines : List Token → List (List Token)
  | [] => []
  | t :: r =>
    if t.isNewline then [t] :: tokenLines r
    else match tokenLines r with
      | [] => [[t]]
      | l :: ls => (t :: l) :: ls

/-- The words that opened the enclosing blocks, innermost first, and the depth of brackets. -/
structure Nesting where
  blocks : List String := []
  brackets : Nat := 0
deriving DecidableEq, Repr

namespace Nesting

/-- The block that a block word needs directly around it. -/
def parent (word : String) : String :=
  if word == "arguments" then "function" else "classdef"

/-- The nesting after a keyword. An `end` inside brackets is an index. -/
def keyword (n : Nesting) (word : String) : Nesting :=
  if word == "end" && n.brackets == 0 then { n with blocks := n.blocks.tail }
  else if word == "classdef" then { n with blocks := word :: n.blocks }
  else if isBlockWord word then
    if n.blocks.head? == some (parent word) then { n with blocks := word :: n.blocks } else n
  else if opensBlock word then { n with blocks := word :: n.blocks }
  else n

/-- The nesting after a token. -/
def step (n : Nesting) (t : Token) : Nesting :=
  if t.kind == .keyword then n.keyword t.text
  else if t.isOpenBracket then { n with brackets := n.brackets + 1 }
  else if t.isCloseBracket then { n with brackets := n.brackets - 1 }
  else n

/-- Whether a line that begins here declares methods directly inside a `methods` block. -/
def inMethods (n : Nesting) : Bool :=
  n.blocks.head? == some "methods" && n.brackets == 0

end Nesting

/-- Whether the line is code that begins with no keyword. -/
def isStubLine (line : List Token) : Bool :=
  (line.dropWhile Token.isWhitespace).head?.any fun t =>
    !(t.isNewline || t.kind == .comment || t.kind == .keyword)

/-- Removes white space, then semicolons, then white space from the end. -/
def trimDeclaration (cs : List Char) : List Char :=
  Text.trimEnd (Text.trimEndBy (· == ';') (Text.trimEnd cs))

def endsDeclaration (t : Token) : Bool :=
  t.isRemark || t.isNewline

/-- Writes the declaration on a line as a function with an empty body. -/
def expandStub (line : List Token) : String :=
  let margin := line.takeWhile Token.isWhitespace
  let code := line.dropWhile Token.isWhitespace
  let declaration := code.takeWhile (!endsDeclaration ·)
  let ending := code.dropWhile (!endsDeclaration ·)
  let gap := if ending.head?.any Token.isRemark then " " else ""
  Token.concat margin ++ "function " ++
    String.ofList (trimDeclaration (Token.concat declaration).toList) ++ "; end" ++ gap ++
    Token.concat ending

/-- The lines with their declarations expanded, from nesting `n`. -/
def expandLines (n : Nesting) : List (List Token) → List String
  | [] => []
  | line :: r =>
    if n.inMethods && isStubLine line then expandStub line :: expandLines n r
    else Token.concat line :: expandLines (line.foldl Nesting.step n) r

/-- Expands the method declarations without a body in the `methods` blocks of `code`. -/
def expandStubs (code : String) : String :=
  String.join (expandLines {} (tokenLines (tokenize code)))

end MatlabOutline
