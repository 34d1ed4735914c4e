import MatlabOutline.Text.Numeral

/-!
Values of attributes, and the kinds of value that an attribute takes.
-/

namespace MatlabOutline

inductive AttrValue
  /-- A logical value, also of an attribute that is named without one. -/
  | bool (b : Bool)
  | string (s : String)
  | list (items : List String)
  /-- A dotted name, one with a `?` before it, or a number. -/
  | name (s : String)
deriving DecidableEq, Repr

inductive AttrKind
  | bool
  | string
  /-- An access level, a metaclass or a list of metaclasses. -/
  | access
  /-- A metaclass or a list of them. -/
  | classes
  | list
  | name
  | number
deriving DecidableEq, Repr

namespace AttrValue

/-- Writes every single quote twice. -/
def doubleQuotes (s : String) : String :=
  String.ofList (s.toList.flatMap fun c => if c = '\'' then ['\'', '\''] else [c])

def display : AttrValue → String
  | bool b => if b then "true" else "false"
  | string s => "'" ++ doubleQuotes s ++ "'"
  | list items => "\x7b" ++ ", ".intercalate items ++ "\x7d"
  | name s => s

end AttrValue

namespace AttrKind

def label : AttrKind → String
  | bool => "Bool"
  | string => "String"
  | access => "Access"
  | classes => "Classes"
  | list => "List"
  | name => "Name"
  | number => "Number"

/-- How messages name the kind. -/
def display : AttrKind → String
  | bool => "a logical value"
  | string => "a string"
  | access => "an access level"
  | classes => "a list of classes"
  | list => "a list"
  | name => "a name"
  | number => "a number"

def all : List AttrKind :=
  [bool, string, access, classes, list, name, number]

/-- Whether a value has the form that the kind expects. -/
def accepts : AttrKind → AttrValue → Bool
  | bool, .bool _ => true
  | string, .string _ => true
  | access, .name _ => true
  | access, .list _ => true
  | classes, .name _ => true
  | classes, .list _ => true
  | list, .list _ => true
  | list, .string _ => true
  | name, .name _ => true
  | number, .name s => Numeral.isFloat s
  | _, _ => false

end AttrKind

end MatlabOutline
