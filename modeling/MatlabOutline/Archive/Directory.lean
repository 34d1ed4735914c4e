import MatlabOutline.Archive.Member

/-!
The directory of an archive, which stands before the record that ends the archive. Other bytes may
stand before the archive and behind it.
-/

namespace MatlabOutline

/-- Why an archive cannot be read. -/
inductive ArchiveFault
  /-- No record ends the archive. -/
  | noEnd
  /-- The directory would begin behind its end. -/
  | directoryOffset
  /-- No directory precedes the record that ends the archive. -/
  | noDirectory
  /-- The records that end a large archive do not agree. -/
  | wideEnd
  /-- The directory is on another disk. -/
  | disks
  | directoryEntry
  | memberHeader
  | method
  | encrypted
deriving DecidableEq, Repr

namespace ArchiveFault

def message : ArchiveFault → String
  | noEnd => "invalid Zip archive: Could not find EOCD"
  | directoryOffset => "invalid Zip archive: Invalid CDFH offset in EOCD"
  | noDirectory => "invalid Zip archive: No CDFH found"
  | wideEnd => "invalid Zip archive: Could not find EOCD64"
  | disks => "unsupported Zip archive: Support for multi-disk files is not implemented"
  | directoryEntry => "invalid Zip archive: Invalid Central Directory header"
  | memberHeader => "invalid Zip archive: Invalid local file header"
  | method => "unsupported Zip archive: Compression method not supported"
  | encrypted => "unsupported Zip archive: Password required to decrypt file"

end ArchiveFault

namespace Zip

/-- Where the directory of an archive is. -/
structure Directory where
  /-- How many members it has. -/
  count : Nat
  /-- Where its entries begin. -/
  place : Nat
  /-- Where the archive begins. -/
  start : Nat
deriving DecidableEq, Repr

/-- The directory of which the end record `r` at `place` speaks. Its first entry is the first mark
at or behind the stated offset, and tells where the archive begins. -/
def plainDirectory (bytes : Bytes) (place : Nat) (r : Bytes) : Except ArchiveFault Directory :=
  let count := field 8 2 r
  let offset := field 16 4 r
  if field 4 2 r ≠ field 6 2 r then .error .disks
  else if field 10 2 r = 0 then .ok ⟨count, max offset place, place - offset⟩
  else if place ≤ offset then .error .directoryOffset
  else match marksBetween entryMark offset place bytes with
    | first :: _ => .ok ⟨count, first, first - offset⟩
    | [] => .error .noDirectory

/-- Whether the end record of a large archive at `place` reaches up to the locator `l` and agrees
with it. -/
def wideEndFits (bytes : Bytes) (locator : Nat) (l : Bytes) (place : Nat) : Bool :=
  let r := bytes.drop place
  44 ≤ field 4 8 r && field 4 8 r + 12 == locator - place && field 20 4 r == field 4 4 l &&
    field 32 8 r * 46 + field 48 8 r ≤ place

/-- The directory of a large archive, whose locator `l` stands at `locator`. -/
def wideDirectory (bytes : Bytes) (locator : Nat) (l : Bytes) : Except ArchiveFault Directory :=
  let offset := field 8 8 l
  if locator ≤ offset ∨ 1 < field 16 4 l then .error .wideEnd
  else match (marksBetween wideEndMark offset locator bytes).find?
      (wideEndFits bytes locator l) with
    | none => .error .wideEnd
    | some place =>
      let r := bytes.drop place
      let count := field 32 8 r
      if field 16 4 r ≠ field 20 4 r then .error .disks
      else if count < field 24 8 r ∨ field 12 2 r < field 14 2 r then .error .wideEnd
      else .ok ⟨count, field 48 8 r + (place - offset), place - offset⟩

/-- The locator before the end record `r` at `place`, if the record leaves room for one. -/
def locator? (bytes : Bytes) (place : Nat) (r : Bytes) : Option Bytes :=
  if (field 10 2 r = 0xFFFF ∨ field 16 4 r = widerValue) ∧ 20 ≤ place then
    (record locatorMark 20 (bytes.drop (place - 20))).map (·.1)
  else none

/-- The directory of which the end record at `place` speaks. -/
def directoryAt (bytes : Bytes) (place : Nat) : Except ArchiveFault Directory :=
  match record endMark 22 (bytes.drop place) with
  | none => .error .noEnd
  | some (r, rest) =>
    if rest.length < field 20 2 r then .error .noEnd
    else match locator? bytes place r with
      | some l => wideDirectory bytes (place - 20) l
      | none => plainDirectory bytes place r

/-- Reads `count` entries, of an archive that begins at `start`. -/
def entries (start : Nat) : Nat → Bytes → Except ArchiveFault (List Member)
  | 0, _ => .ok []
  | count + 1, bytes =>
    match record entryMark 46 bytes with
    | none => .error .directoryEntry
    | some (r, rest) =>
      let name := field 28 2 r
      let extra := field 30 2 r
      let comment := field 32 2 r
      if rest.length < name + extra + comment then .error .directoryEntry
      else
        let behindName := rest.drop name
        let behindExtra := behindName.drop extra
        match memberOf start r (rest.take name) (behindName.take extra)
            (behindExtra.take comment) with
        | none => .error .directoryEntry
        | some m => (entries start count (behindExtra.drop comment)).map (m :: ·)

/-- The members in the directory of which the end record at `place` speaks. -/
def membersAt (bytes : Bytes) (place : Nat) : Except ArchiveFault (List Member) :=
  match directoryAt bytes place with
  | .error fault => .error fault
  | .ok d => entries d.start d.count (bytes.drop d.place)

/-- The members of the first directory that can be read, or why the first one cannot. -/
def membersAmong (bytes : Bytes) : List Nat → Except ArchiveFault (List Member)
  | [] => .error .noEnd
  | place :: r =>
    match membersAt bytes place with
    | .ok found => .ok found
    | .error fault =>
      match membersAmong bytes r with
      | .ok found => .ok found
      | .error _ => .error fault

/-- The members of an archive. The last end record with a readable directory counts. -/
def members (bytes : Bytes) : Except ArchiveFault (List Member) :=
  membersAmong bytes (marksFrom endMark 0 bytes).reverse

end Zip

end MatlabOutline
