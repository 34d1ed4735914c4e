import MatlabOutline.Text.Utf8

/-!
The records of an archive: the marks at which they begin, and the numbers in them.
-/

namespace MatlabOutline

namespace Zip

/-- The number that bytes write, the lowest first. -/
def valueOf : Bytes → Nat
  | [] => 0
  | b :: r => b.toNat + 256 * valueOf r

/-- The number of `width` bytes at `offset`. -/
def field (offset width : Nat) (bytes : Bytes) : Nat :=
  valueOf ((bytes.drop offset).take width)

/-- The mark of a record, whose first half all marks share. -/
def mark (kind number : UInt8) : Bytes :=
  [0x50, 0x4B, kind, number]

def memberMark : Bytes := mark 3 4

def entryMark : Bytes := mark 1 2

def endMark : Bytes := mark 5 6

/-- The record that ends the directory of a large archive. -/
def wideEndMark : Bytes := mark 6 6

/-- The record that says where `wideEndMark` stands. -/
def locatorMark : Bytes := mark 6 7

/-- The offsets at which `sign` stands, where `bytes` begin at `offset`. -/
def marksFrom (sign : Bytes) (offset : Nat) : Bytes → List Nat
  | [] => []
  | b :: r =>
    let more := marksFrom sign (offset + 1) r
    if sign.isPrefixOf (b :: r) then offset :: more else more

/-- The offsets in `bytes` from `first` on at which `sign` stands before `last`. -/
def marksBetween (sign : Bytes) (first last : Nat) (bytes : Bytes) : List Nat :=
  marksFrom sign first ((bytes.take last).drop first)

/-- Cuts a record at its fixed length, if it begins with `sign`. -/
def record (sign : Bytes) (length : Nat) (bytes : Bytes) : Option (Bytes × Bytes) :=
  if bytes.length < length || !sign.isPrefixOf bytes then none
  else some (bytes.take length, bytes.drop length)

end Zip

end MatlabOutline
