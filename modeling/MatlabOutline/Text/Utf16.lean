import MatlabOutline.Text.Utf8

/-!
Reading UTF-16 in either byte order.
-/

namespace MatlabOutline

namespace Utf16

/-- The 16-bit units of a text, with none for a single byte at its end. -/
def units (bigEndian : Bool) : Bytes → List (Option Nat)
  | [] => []
  | [_] => [none]
  | a :: b :: r =>
    (if bigEndian then some (256 * a.toNat + b.toNat) else some (256 * b.toNat + a.toNat)) ::
      units bigEndian r

def isHigh (u : Nat) : Bool :=
  0xD800 ≤ u && u < 0xDC00

def isLow (u : Nat) : Bool :=
  0xDC00 ≤ u && u < 0xE000

/-- The character of a pair of surrogates. -/
def pair (high low : Nat) : Char :=
  Char.ofNat (0x10000 + 0x400 * (high - 0xD800) + (low - 0xDC00))

/-- The characters of a run of units, with none for each surrogate without its partner. -/
def ofUnits : List (Option Nat) → List (Option Char)
  | [] => []
  | none :: _ => [none]
  | [some u] => if isHigh u || isLow u then [none] else [some (Char.ofNat u)]
  | some u :: none :: _ => if isHigh u then [none] else
      if isLow u then [none, none] else [some (Char.ofNat u), none]
  | some u :: some v :: r =>
    if isHigh u then
      if isLow v then some (pair u v) :: ofUnits r else none :: ofUnits (some v :: r)
    else if isLow u then none :: ofUnits (some v :: r)
    else some (Char.ofNat u) :: ofUnits (some v :: r)

def decode (bigEndian : Bool) (bytes : Bytes) : List (Option Char) :=
  ofUnits (units bigEndian bytes)

end Utf16

end MatlabOutline
