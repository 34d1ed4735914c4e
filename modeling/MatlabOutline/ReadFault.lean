/-!
Why the contents of a file or folder cannot be had, in the words of the system.
-/

namespace MatlabOutline

inductive ReadFault
  | notFound
  /-- A file stands where a folder should. -/
  | notFolder
  /-- A folder stands where a file should. -/
  | isFolder
  | notUtf8
  /-- An archive says another checksum than its member has. -/
  | checksum
  /-- The contents of a member cannot be unpacked. -/
  | corrupt
deriving DecidableEq, Repr

namespace ReadFault

def message : ReadFault → String
  | notFound => "No such file or directory (os error 2)"
  | notFolder => "Not a directory (os error 20)"
  | isFolder => "Is a directory (os error 21)"
  | notUtf8 => "stream did not contain valid UTF-8"
  | checksum => "Invalid checksum"
  | corrupt => "corrupt deflate stream"

end ReadFault

end MatlabOutline
