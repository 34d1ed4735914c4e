import MatlabOutline.Archive.Checksum
import MatlabOutline.Archive.Record
import MatlabOutline.Text.CodePage437

/-!
The members of an archive as its directory describes them. The extra data of an entry are a list of
fields, each with its kind and its length, which amend what the entry says.
-/

namespace MatlabOutline

/-- A member as the directory of its archive describes it. -/
structure Member where
  name : Bytes
  /-- The remark on the member, in UTF-8. -/
  comment : Bytes
  flags : Nat
  method : Nat
  checksum : Nat
  /-- The length of the contents as they stand in the archive. -/
  size : Nat
  /-- The length of the contents when they are unpacked. -/
  fullSize : Nat
  /-- Where the member begins. -/
  offset : Nat
  /-- Whether the extra data say how the member is encrypted. -/
  isSealed : Bool := false
deriving DecidableEq, Repr

namespace Zip

/-- The value of a four-byte number that says that a wider one stands in the extra data. -/
def widerValue : Nat := 0xFFFFFFFF

/-- What a field of the extra data does to a member. -/
inductive ExtraStep
  /-- The field takes `used` bytes. -/
  | next (m : Member) (used : Nat)
  /-- The extra data end inside the field. -/
  | short (m : Member)
  | fault
deriving DecidableEq, Repr

/-- The step over `used` bytes of `data`. -/
def ExtraStep.over (m : Member) (used : Nat) (data : Bytes) : ExtraStep :=
  if data.length < used then .short m else .next m used

/-- A number that the entry gives as `value`, and the bytes used so far. If a wider number is to
stand at `used`, it is taken. -/
def widen (isWide : Bool) (value used : Nat) (data : Bytes) : Option (Nat × Nat) :=
  if !isWide then some (value, used)
  else if data.length < used + 8 then none
  else some (field used 8 data, used + 8)

/-- The numbers too large for an entry: the full size, the size and the offset, in this order. Each
is there if the entry says so, and a field of 24 bytes has all of them. -/
def wideNumbers (m : Member) (length : Nat) (data : Bytes) : ExtraStep :=
  let isWide (value : Nat) := 24 ≤ length || value == widerValue
  match widen (isWide m.fullSize) m.fullSize 0 data with
  | none => .short m
  | some (fullSize, used) =>
    let m := { m with fullSize := fullSize }
    match widen (isWide m.size) m.size used data with
    | none => .short m
    | some (size, used) =>
      let m := { m with size := size }
      match widen (isWide m.offset) m.offset used data with
      | none => .short m
      | some (offset, used) =>
        let m := { m with offset := offset }
        if length < used then .fault else .over m length data

/-- Three times of eight bytes each, under a tag of their own. -/
def fineTimes (m : Member) (length : Nat) (data : Bytes) : ExtraStep :=
  if length ≠ 32 then .fault
  else if data.length < 6 then .short m
  else if field 4 2 data ≠ 1 then .fault
  else if data.length < 8 then .short m
  else if field 6 2 data ≠ 24 then .fault
  else .over m 32 data

/-- How many of the lowest `count` bits are set. -/
def bitCount (count n : Nat) : Nat :=
  (List.range count).countP n.testBit

/-- Times of four bytes each, which the bits of the first byte announce. Where there is room for
one only, it is the first whatever the bits say. -/
def times (m : Member) (length : Nat) : Bytes → ExtraStep
  | [] => .short m
  | bits :: r =>
    if length = 5 then .over m 5 (bits :: r)
    else if length ≠ 1 + 4 * bitCount 8 bits.toNat then .fault
    else .over m (1 + 4 * bitCount 3 bits.toNat) (bits :: r)

/-- The way in which a member is encrypted, and how it is packed under that. -/
def sealing (m : Member) (length : Nat) (data : Bytes) : ExtraStep :=
  if length ≠ 7 then .fault
  else if data.length < 7 then .short m
  else if field 2 2 data = 0x4541 ∧ field 0 2 data ∈ [1, 2] ∧ field 4 1 data ∈ [1, 2, 3] then
    .next { m with isSealed := true, method := field 5 2 data } 7
  else .fault

/-- A text in UTF-8 that stands for `known`, which its checksum must confirm. -/
def betterText (known : Bytes) (change : Bytes → Member) (m : Member) (length : Nat)
    (data : Bytes) : ExtraStep :=
  if data.length < 5 then .short m
  else if length < 5 then .fault
  else if data.length < length then .short m
  else
    let text := (data.drop 5).take (length - 5)
    if field 1 4 data = (Checksum.crc known).toNat ∧ (Utf8.decode? text).isSome then
      .next (change text) length
    else .fault

/-- Reads one field. Fields of unknown kinds change nothing. -/
def extraStep (m : Member) (kind length : Nat) (data : Bytes) : ExtraStep :=
  match kind with
  | 0x0001 => wideNumbers m length data
  | 0x000A => fineTimes m length data
  | 0x5455 => times m length data
  | 0x6375 => betterText m.comment (fun text => { m with comment := text }) m length data
  | 0x7075 => betterText m.name (fun text => { m with name := text }) m length data
  | 0x9901 => sealing m length data
  | _ => .over m length data

/-- The member with its extra data, or none if a field is malformed. Extra data that end inside a
field are taken as far as they go. -/
def withExtra (m : Member) (data : Bytes) : Option Member :=
  match data with
  | k :: k' :: l :: l' :: r =>
    match extraStep m (valueOf [k, k']) (valueOf [l, l']) r with
    | .next m used => withExtra m (r.drop used)
    | .short m => some m
    | .fault => none
  | _ => some m
termination_by data.length
decreasing_by
  simp only [List.length_drop, List.length_cons]
  omega

/-- A remark in UTF-8. The flags say how it is written. -/
def commentText (flags : Nat) (raw : Bytes) : Bytes :=
  let chars :=
    if flags.testBit 11 then (Utf8.decode raw).map (·.getD '\ufffd') else CodePage437.decode raw
  (String.ofList chars).toUTF8.toList

/-- The bound of the offsets in an archive. -/
def offsetBound : Nat := 0x10000000000000000

/-- The member of an entry that has the fixed part `r`, of an archive that begins at `start`. A
method of 99 needs extra data on the encryption. -/
def memberOf (start : Nat) (r name extra comment : Bytes) : Option Member :=
  let flags := field 8 2 r
  let stated : Member := {
    name
    comment := commentText flags comment
    flags
    method := field 10 2 r
    checksum := field 16 4 r
    size := field 20 4 r
    fullSize := field 24 4 r
    offset := field 42 4 r }
  match withExtra stated extra with
  | none => none
  | some m =>
    if m.method = 99 ∧ !m.isSealed ∨ offsetBound ≤ m.offset + start then none
    else some { m with offset := m.offset + start }

end Zip

end MatlabOutline
