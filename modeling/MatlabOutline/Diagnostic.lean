import MatlabOutline.JsonValue

/-!
Messages about source files and the places that they are about.
-/

namespace MatlabOutline

/-- A file, lines, or both. -/
structure Location where
  file : Option String := none
  /-- The first and the last line. -/
  lines : Option (Nat × Nat) := none
deriving DecidableEq, Repr

inductive Severity
  | error
  | warning
deriving DecidableEq, Repr

structure Diagnostic where
  severity : Severity
  location : Location
  text : String
deriving DecidableEq, Repr

namespace Location

def ofFile (file : String) : Location :=
  { file := some file }

/-- Narrows a location to lines. The last line is never before the first. -/
def withLines (l : Location) (first last : Nat) : Location :=
  { l with lines := some (first, max first last) }

def withLine (l : Location) (line : Nat) : Location :=
  l.withLines line line

def isEmpty (l : Location) : Bool :=
  l.file.isNone && l.lines.isNone

def displayLines : Nat × Nat → String
  | (first, last) => if last > first then toString first ++ "-" ++ toString last else toString first

def display (l : Location) : String :=
  match l.file, l.lines with
  | none, none => ""
  | some file, none => file
  | none, some lines => displayLines lines
  | some file, some lines => file ++ ":" ++ displayLines lines

/-- Puts the location before a message, if there is one. -/
def tag (l : Location) (message : String) : String :=
  if l.isEmpty then message else l.display ++ ": " ++ message

def toJson (l : Location) : JsonValue :=
  .obj [("file_name", .ofStr? l.file),
    ("lines", .ofOption (fun (first, last) => .obj [("start", .nat first), ("end", .nat last)])
      l.lines)]

end Location

namespace Severity

def display : Severity → String
  | error => "error"
  | warning => "warning"

def toJson : Severity → JsonValue
  | error => .str "Error"
  | warning => .str "Warning"

end Severity

namespace Diagnostic

def display (d : Diagnostic) : String :=
  d.location.tag (d.severity.display ++ ": " ++ d.text)

def toJson (d : Diagnostic) : JsonValue :=
  .obj [("severity", d.severity.toJson), ("location", d.location.toJson), ("text", .str d.text)]

end Diagnostic

end MatlabOutline
