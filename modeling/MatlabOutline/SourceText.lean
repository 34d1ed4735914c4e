import MatlabOutline.Diagnostic
import MatlabOutline.Text.Blank
import MatlabOutline.Text.Encoding

/-!
Source texts: the contents of a file, where they came from, and their lines.
-/

namespace MatlabOutline

structure SourceText where
  /-- None if the text came from no file. -/
  file : Option String
  encoding : Encoding
  contents : String
deriving DecidableEq, Repr

namespace SourceText

def location (s : SourceText) : Location :=
  { file := s.file }

/-- The bytes behind the line feeds of a text that begins at byte `n`. -/
def behindFeeds (n : Nat) : List Char → List Nat
  | [] => []
  | c :: r =>
    let next := n + c.utf8Size
    if c = '\n' then next :: behindFeeds next r else behindFeeds next r

/-- The bytes at which the lines begin. No line begins at the end of the contents. -/
def lineStarts (s : SourceText) : List Nat :=
  (0 :: behindFeeds 0 s.contents.toList).filter (· < s.contents.utf8ByteSize)

def lineCount (s : SourceText) : Nat :=
  s.lineStarts.length

/-- The line with number `n`, counted from 1, without its line end. -/
def line? (s : SourceText) : Nat → Option String
  | 0 => none
  | n + 1 => do
    let start ← s.lineStarts[n]?
    let stop := s.lineStarts[n + 1]?.getD s.contents.utf8ByteSize
    let line := String.Pos.Raw.extract s.contents ⟨start⟩ ⟨stop⟩
    return String.ofList (Text.chomp line.toList)

/-- Reads the bytes of a file, with a warning if some are malformed. -/
def ofBytes (bytes : Bytes) (file : Option String) (choice : EncodingChoice) :
    SourceText × Option String :=
  let decoded := choice.decode bytes
  let warning := if decoded.malformed then
      some (file.getD "<input>" ++ ": contains byte sequences that are invalid in " ++
        decoded.encoding.name)
    else none
  ({ file, encoding := decoded.encoding, contents := decoded.text }, warning)

end SourceText

end MatlabOutline
