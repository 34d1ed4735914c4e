import MatlabOutline.Word

/-!
Tokens: what a piece of source text is, the text itself, and the line on which it begins.
-/

namespace MatlabOutline

inductive TokenKind
  /-- A reserved word, or a block word at the beginning of a line. -/
  | keyword
  | name
  /-- The name that a `function` line declares. -/
  | nameFunction
  /-- An operator; the transpose mark is one. -/
  | operator
  /-- Brackets, `,`, `;`, and `.` before a field name. -/
  | punctuation
  /-- A quoted string, with its quotes. -/
  | string
  | number
  /-- A line comment, a block comment or a `...` continuation marker. -/
  | comment
  | whitespace
  | newline
  /-- A character that no other kind accepts. -/
  | text
deriving DecidableEq, Repr, Inhabited

structure Token where
  kind : TokenKind
  text : String
  /-- The line on which the token begins, counted from 1. -/
  line : Nat
deriving DecidableEq, Repr, Inhabited

namespace TokenKind

def label : TokenKind → String
  | keyword => "Keyword"
  | name => "Name"
  | nameFunction => "NameFunction"
  | operator => "Operator"
  | punctuation => "Punctuation"
  | string => "String"
  | number => "Number"
  | comment => "Comment"
  | whitespace => "Whitespace"
  | newline => "Newline"
  | text => "Text"

end TokenKind

namespace Token

def is (t : Token) (kind : TokenKind) (text : String) : Bool :=
  t.kind == kind && t.text == text

def isKeyword (t : Token) (word : String) : Bool :=
  t.is .keyword word

def isPunct (t : Token) (mark : String) : Bool :=
  t.is .punctuation mark

def isOperator (t : Token) (mark : String) : Bool :=
  t.is .operator mark

def isNewline (t : Token) : Bool :=
  t.kind == .newline

def isWhitespace (t : Token) : Bool :=
  t.kind == .whitespace

/-- White space or a line end. -/
def isSpacing (t : Token) : Bool :=
  t.isWhitespace || t.isNewline

/-- A `...` marker, which joins its line to the next. -/
def isContinuation (t : Token) : Bool :=
  t.kind == .comment && ['.', '.', '.'].isPrefixOf t.text.toList

/-- A comment that can document something. -/
def isRemark (t : Token) : Bool :=
  t.kind == .comment && !t.isContinuation

def isOpenBracket (t : Token) : Bool :=
  t.isPunct "(" || t.isPunct "[" || t.isPunct "\x7b"

def isCloseBracket (t : Token) : Bool :=
  t.isPunct ")" || t.isPunct "]" || t.isPunct "\x7d"

/-- The line on which the token ends. A line end belongs to the line that it ends. -/
def endLine (t : Token) : Nat :=
  if t.isNewline then t.line else t.line + Text.feeds t.text.toList

/-- How messages show the token. -/
def describe (t : Token) : String :=
  match t.kind with
  | .newline => "new-line"
  | .whitespace => "white space"
  | _ => "`" ++ t.text ++ "`"

/-- The source text that a run of tokens covers. -/
def concat (ts : List Token) : String :=
  String.join (ts.map Token.text)

end Token

end MatlabOutline
