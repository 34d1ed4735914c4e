import MatlabOutline.Text.Utf8

/-!
The cyclic redundancy check that archives keep of their members.
-/

namespace MatlabOutline

namespace Checksum

/-- One bit of division by the polynomial, its lowest bit first. -/
def shift (n : UInt32) : UInt32 :=
  if n % 2 = 1 then (n >>> 1) ^^^ 0xEDB88320 else n >>> 1

def shifts : Nat → UInt32 → UInt32
  | 0, n => n
  | count + 1, n => shifts count (shift n)

def update (n : UInt32) (b : UInt8) : UInt32 :=
  shifts 8 (n ^^^ b.toUInt32)

/-- The check of a sequence of bytes. -/
def crc (bytes : Bytes) : UInt32 :=
  bytes.foldl update 0xFFFFFFFF ^^^ 0xFFFFFFFF

end Checksum

end MatlabOutline
