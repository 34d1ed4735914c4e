/-!
Texts that are numbers: decimal and scientific numerals, and whole numbers of 64 bits.
-/

namespace MatlabOutline

namespace Numeral

def isNonemptyDigits (cs : List Char) : Bool :=
  !cs.isEmpty && cs.all Char.isDigit

/-- Drops one sign at the front. -/
def dropSign : List Char → List Char
  | '+' :: r => r
  | '-' :: r => r
  | cs => cs

/-- Nothing, or an exponent mark, an optional sign and digits. -/
def isExponent : List Char → Bool
  | [] => true
  | c :: r => (c == 'e' || c == 'E') && isNonemptyDigits (dropSign r)

/-- Digits with at most one point and at least one digit, and an optional exponent. -/
def isUnsigned (cs : List Char) : Bool :=
  let whole := cs.takeWhile Char.isDigit
  match cs.dropWhile Char.isDigit with
  | '.' :: r =>
    !(whole.isEmpty && (r.takeWhile Char.isDigit).isEmpty) && isExponent (r.dropWhile Char.isDigit)
  | r => !whole.isEmpty && isExponent r

/-- The words for values that no digits write, in any letter case. -/
def isSpecial (cs : List Char) : Bool :=
  ["inf", "infinity", "nan"].contains (String.ofList (cs.map Char.toLower))

/-- A floating-point number with an optional sign. -/
def isFloat (s : String) : Bool :=
  let cs := dropSign s.toList
  isUnsigned cs || isSpecial cs

/-- The value of a run of decimal digits. -/
def value (cs : List Char) : Nat :=
  cs.foldl (fun n c => 10 * n + (c.toNat - '0'.toNat)) 0

/-- The least number that a word of 64 bits cannot hold. -/
def wordLimit : Nat :=
  18446744073709551616

/-- The number below the limit that the digits of `s` write, after an optional `+`. -/
def word? (s : String) : Option Nat :=
  let cs := match s.toList with
    | '+' :: r => r
    | cs => cs
  if isNonemptyDigits cs && value cs < wordLimit then some (value cs) else none

end Numeral

end MatlabOutline
