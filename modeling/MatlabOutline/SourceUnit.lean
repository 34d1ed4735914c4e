import MatlabOutline.Declaration.Class
import MatlabOutline.Normalize.Basic

/-!
Source units: the text of one file, and the entity that it declares.
-/

namespace MatlabOutline

inductive UnitKind
  | function
  | cls
  | script
deriving DecidableEq, Repr

/-- A fault and where it is. -/
structure ParseError where
  location : Location
  fault : Fault
deriving DecidableEq, Repr

/-- Something that reading a unit tells besides its result. -/
inductive Report
  | warning (d : Diagnostic)
  /-- A remark that is of no interest to most readers. -/
  | detail (message : String)
deriving DecidableEq, Repr

/-- The entity of a unit, or why there is none, after the reports made on the way. -/
structure Parsed where
  result : Except ParseError Entity
  reports : List Report

namespace ParseError

def message (e : ParseError) : String :=
  e.location.tag e.fault.message

end ParseError

/-- A token that decides what a unit declares. -/
def Token.isSignificant (t : Token) : Bool :=
  !t.isHeader

/-- What a unit declares, by its first significant token. -/
def classify (ts : List Token) : UnitKind :=
  match ts.find? Token.isSignificant with
  | some t =>
    if t.isKeyword "function" then .function
    else if t.isKeyword "classdef" then .cls
    else .script
  | none => .script

/-- A script, which the comment lines at its top document. -/
def scriptOf (text name scope : String) : ScriptDoc where
  name := name
  scope := scope
  doc := Docstring.ofComments ((Cursor.ofTokens (tokenize text)).skipSpacing.commentRun).1
  body := text

/-- What a note tells, where `place` is where a line stands in its file. -/
def Note.report (place : Nat → Location) : Note → Report
  | warning line cause => .warning ⟨.warning, place line, cause.message⟩
  | skipped line token =>
    .detail ((place line).display ++ ": skipping " ++ token ++ " in methods block")

/-- Where a line of the normalized text stands in the file that `location` names: below the header
of `text`. -/
def placeOf (location : Location) (text : String) (line : Nat) : Location :=
  location.withLine (line + headerLines text)

/-- The result of a reader, with its lines put in their places. -/
def Parsed.ofReader {α : Type} (place : Nat → Location) (entity : α → Entity) :
    Except Failure (α × Reader) → Parsed
  | .ok (a, r) => ⟨.ok (entity a), r.notes.reverse.map (Note.report place)⟩
  | .error f =>
    ⟨.error ⟨place f.error.line, f.error.fault⟩, f.notes.reverse.map (Note.report place)⟩

/-- The reader at the first token of the normalized text. -/
def readerOf (text : String) : Reader :=
  { cursor := (Cursor.ofTokens (tokenize (normalize (removeHeader text)))).skipSpacing }

/-- Reads a unit that should declare `name` in `scope`. -/
def parseUnit (location : Location) (text name scope : String) : Parsed :=
  let place := placeOf location text
  match classify (tokenize text) with
  | .script => ⟨.ok (.script (scriptOf text name scope)), []⟩
  | .function => .ofReader place .function ((readerOf text).function scope (some name))
  | .cls => .ofReader place .cls ((readerOf text).classDeclaration place scope name)

end MatlabOutline
