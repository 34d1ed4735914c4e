/-!
JSON values and their texts: compact, and with one item a line.
-/

namespace MatlabOutline

inductive JsonValue
  | null
  | bool (b : Bool)
  | nat (n : Nat)
  | str (s : String)
  | arr (items : List JsonValue)
  | obj (fields : List (String × JsonValue))

namespace JsonValue

def ofOption {α : Type} (f : α → JsonValue) : Option α → JsonValue
  | none => null
  | some a => f a

def ofStr? (s : Option String) : JsonValue :=
  ofOption str s

def ofStrs (l : List String) : JsonValue :=
  arr (l.map str)

def hexDigits (n : Nat) : List Char :=
  ['0', '0', Nat.digitChar (n / 16), Nat.digitChar (n % 16)]

/-- Quotes, backslashes and control characters are escaped, all else stands for itself. -/
def escapeChar (c : Char) : List Char :=
  if c = '"' then ['\\', '"']
  else if c = '\\' then ['\\', '\\']
  else if c = '\n' then ['\\', 'n']
  else if c = '\r' then ['\\', 'r']
  else if c = '\t' then ['\\', 't']
  else if c.toNat = 8 then ['\\', 'b']
  else if c.toNat = 12 then ['\\', 'f']
  else if c.toNat < 32 then '\\' :: 'u' :: hexDigits c.toNat
  else [c]

def quote (s : String) : String :=
  String.ofList ('"' :: s.toList.flatMap escapeChar ++ ['"'])

mutual

/-- The text without white space between tokens. -/
def compact : JsonValue → String
  | null => "null"
  | bool b => if b then "true" else "false"
  | nat n => toString n
  | str s => quote s
  | arr items => "[" ++ ",".intercalate (compactItems items) ++ "]"
  | obj fields => "\x7b" ++ ",".intercalate (compactFields fields) ++ "\x7d"

def compactItems : List JsonValue → List String
  | [] => []
  | v :: r => compact v :: compactItems r

def compactFields : List (String × JsonValue) → List String
  | [] => []
  | (k, v) :: r => (quote k ++ ":" ++ compact v) :: compactFields r

end

def indent (depth : Nat) : String :=
  "\n" ++ String.ofList (List.replicate (2 * depth) ' ')

/-- Brackets around items on lines of their own, at `depth`. -/
def bracket (left right : String) (depth : Nat) (items : List String) : String :=
  if items.isEmpty then left ++ right
  else left ++ ",".intercalate (items.map (indent (depth + 1) ++ ·)) ++ indent depth ++ right

mutual

/-- The text with each item on a line of its own, indented by two spaces a level. -/
def pretty (depth : Nat) : JsonValue → String
  | null => "null"
  | bool b => if b then "true" else "false"
  | nat n => toString n
  | str s => quote s
  | arr items => bracket "[" "]" depth (prettyItems (depth + 1) items)
  | obj fields => bracket "\x7b" "\x7d" depth (prettyFields (depth + 1) fields)

def prettyItems (depth : Nat) : List JsonValue → List String
  | [] => []
  | v :: r => pretty depth v :: prettyItems depth r

def prettyFields (depth : Nat) : List (String × JsonValue) → List String
  | [] => []
  | (k, v) :: r => (quote k ++ ": " ++ pretty depth v) :: prettyFields depth r

end

end JsonValue

end MatlabOutline
