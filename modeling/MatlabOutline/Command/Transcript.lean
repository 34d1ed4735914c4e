import MatlabOutline.Application
import MatlabOutline.Log
import MatlabOutline.Settings
import MatlabOutline.SourceUnit

/-!
Transcripts: what carrying out a request writes, and how it ends.
-/

namespace MatlabOutline

namespace Command

/-- Why a request fails. -/
inductive RequestError
  | settingsRead (path : String) (f : ReadFault)
  | settings (path : String) (e : SettingsError)
  | read (path : String) (f : ReadFault)
  | load (e : LoadError)
  | parse (e : ParseError)
  | notFound (input : String)
  | namesNotFound (missing total : Nat)
deriving DecidableEq, Repr

/-- What a request writes: log records, then notices, then an error if it fails. -/
structure Transcript where
  log : List LogRecord := []
  stdout : String := ""
  /-- Lines for standard error. -/
  notices : List String := []
  error : Option RequestError := none

/-- What a run of the program leaves. -/
structure Outcome where
  exitCode : Nat
  stdout : String
  stderr : String
deriving DecidableEq, Repr

namespace RequestError

def message : RequestError → String
  | settingsRead path f => path ++ ": " ++ f.message
  | settings path e => path ++ ": " ++ e.message?.getD "TOML parse error"
  | read path f => path ++ ": " ++ f.message
  | load e => e.message
  | parse e => e.message
  | notFound input => input ++ ": not found"
  | namesNotFound missing total =>
    toString missing ++ " of " ++ toString total ++ " names not found"

/-- What lies behind the error, if that is told apart. -/
def cause? : RequestError → Option String
  | load (.read f) => some f.message
  | load (.archive f) => some f.message
  | _ => none

/-- The lines that tell the error. -/
def display (e : RequestError) : String :=
  let head := "Error: " ++ e.message ++ "\n"
  match e.cause? with
  | some cause => head ++ "\nCaused by:\n    " ++ cause ++ "\n"
  | none => head

end RequestError

/-- Which records the log shows of the parts of the program whose names begin with `part`. -/
structure LogRule where
  part : String := ""
  /-- The most detailed level that is shown, or none if nothing is. -/
  most : Option LogLevel
deriving DecidableEq, Repr

/-- Of the rules on a part the most specific one counts, and of two on the same parts the later. -/
abbrev LogFilter := List LogRule

namespace LogRule

/-- The level that a word names in any letter case, where `some none` shows nothing. -/
def level? (word : String) : Option (Option LogLevel) :=
  match String.ofList ((Text.trim word.toList).map Char.toLower) with
  | "off" => some none
  | "error" => some (some .error)
  | "warn" => some (some .warn)
  | "info" => some (some .warn)
  | "debug" => some (some .debug)
  | "trace" => some (some .debug)
  | _ => none

/-- Reads a level for all parts, a part that is shown in full, or a part with its level. -/
def ofWord? (word : String) : Option LogRule :=
  match (Text.splitAt '=' word.toList).map String.ofList with
  | [only] => some (match level? only with
    | some most => { most := most }
    | none => { part := only, most := some .debug })
  | [part, ""] => some { part, most := some .debug }
  | [part, level] => (level? level).map fun most =>
    { part := String.ofList (Text.trim part.toList), most }
  | _ => none

def covers (r : LogRule) (part : String) : Bool :=
  r.part.toList.isPrefixOf part.toList

end LogRule

namespace LogFilter

/-- The filter that a text names: rules with commas between them. The default shows warnings, and
a text without rules shows errors. -/
def ofText : Option String → LogFilter
  | none => [{ most := some .warn }]
  | some text =>
    let words := (Text.splitAt ',' text.toList).map fun cs => String.ofList (Text.trim cs)
    match (words.filter (!·.isEmpty)).filterMap LogRule.ofWord? with
    | [] => [{ most := some .error }]
    | rules => rules

/-- The rule that counts for a part, if one covers it. -/
def ruleFor? (f : LogFilter) (part : String) : Option LogRule :=
  f.foldl (fun best r =>
    if r.covers part && best.all (fun (b : LogRule) => b.part.length ≤ r.part.length) then some r
    else best) none

def shows (f : LogFilter) (r : LogRecord) : Bool :=
  ((f.ruleFor? r.origin.name).bind LogRule.most).any fun most => r.level.rank ≤ most.rank

end LogFilter

/-- A log record as a line. Further lines of its message are indented. -/
def logLine (r : LogRecord) : String :=
  let indented := r.message.toList.flatMap fun c => if c = '\n' then "\n    ".toList else [c]
  "[" ++ r.level.column ++ " " ++ r.origin.name ++ "] " ++ String.ofList indented ++ "\n"

namespace Transcript

/-- What is left of a transcript when the log is filtered. -/
def outcome (t : Transcript) (filter : LogFilter) : Outcome where
  exitCode := if t.error.isSome then 1 else 0
  stdout := t.stdout
  stderr := String.join ((t.log.filter filter.shows).map logLine ++
    t.notices.map (· ++ "\n") ++ (t.error.map RequestError.display).toList)

end Transcript

end Command

end MatlabOutline
