import MatlabOutline.Text.Utf8

/-!
Settings files in TOML, of which only top-level keys with string values are read. Everything else
is refused.
-/

namespace MatlabOutline

namespace Toml

def isGap (c : Char) : Bool :=
  c == ' ' || c == '\t'

/-- A control character that may not stand in a comment or a string. -/
def isControl (c : Char) : Bool :=
  (c.toNat < 32 && c != '\t') || c.toNat == 127

def isBareKey (c : Char) : Bool :=
  c.isAlphanum || c == '_' || c == '-'

/-- The value of a hexadecimal digit. -/
def hexValue? (c : Char) : Option Nat :=
  if c.isDigit then some (c.toNat - '0'.toNat)
  else if 'a' ≤ c ∧ c ≤ 'f' then some (c.toNat - 'a'.toNat + 10)
  else if 'A' ≤ c ∧ c ≤ 'F' then some (c.toNat - 'A'.toNat + 10)
  else none

/-- The character whose code point the digits write. -/
def codePoint? (digits : List Char) : Option Char := do
  let values ← digits.mapM hexValue?
  let n := values.foldl (fun n d => 16 * n + d) 0
  if n.isValidChar then some (Char.ofNat n) else none

/-- The character that a one-letter escape stands for. -/
def escape? : Char → Option Char
  | 'b' => some '\x08'
  | 'e' => some '\x1b'
  | 't' => some '\t'
  | 'n' => some '\n'
  | 'f' => some '\x0c'
  | 'r' => some '\r'
  | '"' => some '"'
  | '\\' => some '\\'
  | _ => none

/-- Puts a character before what was read. -/
def push (c : Option Char) (s : Option (List Char × List Char)) :
    Option (List Char × List Char) := do
  let (text, rest) ← s
  return ((← c) :: text, rest)

/-- The rest of a string in double quotes. -/
def basicRest : List Char → Option (List Char × List Char)
  | [] => none
  | '"' :: r => some ([], r)
  | '\\' :: 'x' :: a :: b :: r => push (codePoint? [a, b]) (basicRest r)
  | '\\' :: 'u' :: a :: b :: c :: d :: r => push (codePoint? [a, b, c, d]) (basicRest r)
  | '\\' :: 'U' :: a :: b :: c :: d :: e :: f :: g :: h :: r =>
    push (codePoint? [a, b, c, d, e, f, g, h]) (basicRest r)
  | '\\' :: c :: r => push (escape? c) (basicRest r)
  | c :: r => if isControl c then none else push (some c) (basicRest r)

/-- The rest of a string in single quotes, which knows no escapes. -/
def literalRest : List Char → Option (List Char × List Char)
  | [] => none
  | '\'' :: r => some ([], r)
  | c :: r => if isControl c then none else push (some c) (literalRest r)

/-- Whether only gaps are left on the line. -/
def endsLine (cs : List Char) : Bool :=
  match cs.dropWhile isGap with
  | '\n' :: _ => true
  | '\r' :: '\n' :: _ => true
  | _ => false

/-- The rest of a string in three double quotes; `skipping` passes over gaps and line ends, as a
backslash at the end of a line does. -/
def longBasicRest (skipping : Bool) : List Char → Option (List Char × List Char)
  | [] => none
  | '"' :: '"' :: '"' :: '"' :: '"' :: r => some (['"', '"'], r)
  | '"' :: '"' :: '"' :: '"' :: r => some (['"'], r)
  | '"' :: '"' :: '"' :: r => some ([], r)
  | '\\' :: 'x' :: a :: b :: r => push (codePoint? [a, b]) (longBasicRest false r)
  | '\\' :: 'u' :: a :: b :: c :: d :: r => push (codePoint? [a, b, c, d]) (longBasicRest false r)
  | '\\' :: 'U' :: a :: b :: c :: d :: e :: f :: g :: h :: r =>
    push (codePoint? [a, b, c, d, e, f, g, h]) (longBasicRest false r)
  | '\r' :: '\n' :: r =>
    if skipping then longBasicRest true r
    else push (some '\r') (push (some '\n') (longBasicRest false r))
  | '\\' :: r =>
    if endsLine r then longBasicRest true r
    else match r with
      | c :: r' => push (escape? c) (longBasicRest false r')
      | [] => none
  | c :: r =>
    if skipping && (isGap c || c == '\n') then longBasicRest true r
    else if isControl c && c != '\n' then none
    else push (some c) (longBasicRest false r)

/-- The rest of a string in three single quotes. -/
def longLiteralRest : List Char → Option (List Char × List Char)
  | [] => none
  | '\'' :: '\'' :: '\'' :: '\'' :: '\'' :: r => some (['\'', '\''], r)
  | '\'' :: '\'' :: '\'' :: '\'' :: r => some (['\''], r)
  | '\'' :: '\'' :: '\'' :: r => some ([], r)
  | '\r' :: '\n' :: r => push (some '\r') (push (some '\n') (longLiteralRest r))
  | c :: r => if isControl c && c != '\n' then none else push (some c) (longLiteralRest r)

/-- Drops a line end at the front. -/
def dropLineEnd : List Char → List Char
  | '\n' :: r => r
  | '\r' :: '\n' :: r => r
  | cs => cs

/-- A string on one line. -/
def shortString : List Char → Option (List Char × List Char)
  | '"' :: r => basicRest r
  | '\'' :: r => literalRest r
  | _ => none

def stringValue : List Char → Option (List Char × List Char)
  | '"' :: '"' :: '"' :: r => longBasicRest false (dropLineEnd r)
  | '\'' :: '\'' :: '\'' :: r => longLiteralRest (dropLineEnd r)
  | cs => shortString cs

/-- A bare or quoted key. -/
def key (cs : List Char) : Option (List Char × List Char) :=
  let bare := cs.takeWhile isBareKey
  if bare.isEmpty then shortString cs else some (bare, cs.dropWhile isBareKey)

/-- The text after the end of a line, which may end in a comment. -/
def afterLine (cs : List Char) : Option (List Char) :=
  let rest := match cs.dropWhile isGap with
    | '#' :: r => r.dropWhile (!isControl ·)
    | r => r
  match rest with
  | [] => some []
  | '\n' :: r => some r
  | '\r' :: '\n' :: r => some r
  | _ => none

/-- One key and its string. -/
def pair (cs : List Char) : Option ((String × String) × List Char) := do
  let (name, r) ← key cs
  match r.dropWhile isGap with
  | '=' :: r =>
    let (value, r) ← stringValue (r.dropWhile isGap)
    return ((String.ofList name, String.ofList value), ← afterLine r)
  | _ => none

/-- The pairs of at most `fuel` lines after those already read. No key may occur twice. -/
def document (fuel : Nat) (pairs : List (String × String)) (cs : List Char) :
    Option (List (String × String)) :=
  match fuel, cs.dropWhile isGap with
  | _, [] => some pairs
  | 0, _ => none
  | n + 1, line =>
    match afterLine line with
    | some r => document n pairs r
    | none =>
      match pair line with
      | some ((name, value), r) =>
        if (pairs.lookup name).isSome then none else document n (pairs ++ [(name, value)]) r
      | none => none

/-- The keys and strings of a document in order, or none if it holds anything else. Each line has
at least one character, so the length bounds the number of lines. -/
def parse (text : String) : Option (List (String × String)) :=
  let cs := match text.toList with
    | '\ufeff' :: r => r
    | cs => cs
  document cs.length [] cs

end Toml

end MatlabOutline
