import MatlabOutline.Text.Utf8

/-!
Reading windows-1252, in which every byte is a character.
-/

namespace MatlabOutline

namespace Windows1252

/-- The characters of the bytes from 0x80 to 0x9F. The others stand for the code point of their
number. -/
def upper : List Nat :=
  [0x20AC, 0x81, 0x201A, 0x192, 0x201E, 0x2026, 0x2020, 0x2021, 0x2C6, 0x2030, 0x160, 0x2039,
    0x152, 0x8D, 0x17D, 0x8F, 0x90, 0x2018, 0x2019, 0x201C, 0x201D, 0x2022, 0x2013, 0x2014,
    0x2DC, 0x2122, 0x161, 0x203A, 0x153, 0x9D, 0x17E, 0x178]

def char (b : UInt8) : Char :=
  let n := b.toNat
  if n < 0x80 then Char.ofNat n else Char.ofNat (upper[n - 0x80]?.getD n)

def decode (bytes : Bytes) : List (Option Char) :=
  bytes.map fun b => some (char b)

end Windows1252

end MatlabOutline
