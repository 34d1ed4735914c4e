import MatlabOutline.Archive.Directory
import MatlabOutline.Archive.Inflate
import MatlabOutline.ReadFault

/-!
The contents of the members of an archive.
-/

namespace MatlabOutline

namespace Zip

/-- Whether members packed in this way are recognised. -/
def knownMethod (m : Member) : Bool :=
  [0, 8, 9, 12, 14, 93, 95, 98].contains m.method

/-- The bytes of a member as they stand in the archive. -/
def packed (bytes : Bytes) (m : Member) : Except ArchiveFault Bytes :=
  if m.flags % 2 = 1 then .error .encrypted
  else match record memberMark 30 (bytes.drop m.offset) with
    | none => .error .memberHeader
    | some (r, rest) =>
      if !knownMethod m then .error .method
      else if m.isSealed then .error .encrypted
      else .ok ((rest.drop (field 26 2 r + field 28 2 r)).take m.size)

/-- The contents of a member, which its checksum must confirm. They are stored or deflated. -/
def unpack (m : Member) (contents : Bytes) : Except ReadFault Bytes :=
  let made? := match m.method with
    | 0 => some contents
    | 8 => Inflate.inflate contents
    | _ => none
  match made? with
  | none => .error .corrupt
  | some made => if (Checksum.crc made).toNat = m.checksum then .ok made else .error .checksum

end Zip

end MatlabOutline
