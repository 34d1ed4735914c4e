import MatlabOutline.Text.Blank

/-!
Docstrings: the text that a run of comments says, without the comment marks and the margin.
-/

namespace MatlabOutline

namespace Docstring

def isIndent (c : Char) : Bool :=
  c == ' ' || c == '\t'

/-- The lines of text in one comment. A block comment loses the lines that open and close it, a
line comment its leading `%` marks. -/
def commentLines (comment : List Char) : List (List Char) :=
  if ['%', '\x7b'].isPrefixOf comment then
    let inner := (Text.lines comment).drop 1
    if inner.getLast?.any (Text.trim · == ['%', '\x7d']) then inner.dropLast else inner
  else [(Text.trimStart comment).dropWhile (· == '%')]

/-- The width of the spaces and tabs before the text of a line. -/
def indentOf (line : List Char) : Nat :=
  (line.takeWhile isIndent).length

/-- The least indentation of a line that is not blank. -/
def margin (lines : List (List Char)) : Nat :=
  (((lines.filter (!Text.allBlank ·)).map indentOf).min?).getD 0

/-- A line without the margin and the white space at its end. -/
def dedent (width : Nat) (line : List Char) : List Char :=
  if Text.allBlank line then [] else Text.trimEnd (line.drop width)

/-- Drops the empty lines before the first and behind the last line of text. -/
def dropOuterBlank (lines : List (List Char)) : List (List Char) :=
  ((lines.dropWhile List.isEmpty).reverse.dropWhile List.isEmpty).reverse

/-- The lines that a run of comments says. -/
def linesOf (comments : List String) : List (List Char) :=
  let lines := comments.flatMap fun comment => commentLines comment.toList
  dropOuterBlank (lines.map (dedent (margin lines)))

/-- The text that a run of comments says, which may be empty. -/
def clean (comments : List String) : String :=
  String.ofList (Text.joinWith '\n' (linesOf comments))

/-- A docstring is never empty. -/
def ofText (text : String) : Option String :=
  if text.isEmpty then none else some text

/-- The docstring that a run of comments makes, if anything is said. -/
def ofComments (comments : List String) : Option String :=
  ofText (clean comments)

end Docstring

end MatlabOutline
