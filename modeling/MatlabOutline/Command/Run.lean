import MatlabOutline.Catalog.Search
import MatlabOutline.Command.Invocation
import MatlabOutline.Command.Transcript
import MatlabOutline.Entity.Json
import MatlabOutline.Text.Quoted

/-!
Carrying out requests on the files of a disk.
-/

namespace MatlabOutline

namespace Command

/-- Reads settings from a file, which relative paths in it start from. -/
def settingsOfFile (disk : Disk) (path : String) : Except RequestError Settings := do
  let bytes ← (disk.read path).mapError (.settingsRead path)
  let some text := Utf8.decode? bytes | throw (.settingsRead path .notUtf8)
  (Settings.ofToml text (PathText.parent path)).mapError (.settings path)

namespace Invocation

/-- The settings for a request. Options win over the settings file. -/
def settings (i : Invocation) (disk : Disk) : Except RequestError Settings := do
  let base ← match i.config with
    | some path => settingsOfFile disk path
    | none => pure {}
  return { root := i.root.getD base.root, encoding := i.encoding.getD base.encoding }

/-- The file that a request names, if it names one. -/
def input? (i : Invocation) : Option String :=
  match i.request with
  | .display r => some r.input
  | .tokens r => some r.input
  | .resolve _ => none

end Invocation

/-! Showing one file outside of any module. -/

/-- The records that a report on a shown file makes: a warning is followed by the line that it is
about. -/
def reportRecords (source : SourceText) : Report → List LogRecord
  | .detail message => [⟨.debug, .declaration, message⟩]
  | .warning d =>
    let line := (d.location.lines.bind fun (first, _) => source.line? first).map fun line =>
      "    " ++ String.ofList (Text.trim line.toList)
    ⟨.warn, .display, d.display⟩ :: line.toList.map fun line => ⟨.warn, .display, line⟩

def sourceRecords (warning : Option String) : List LogRecord :=
  warning.toList.map fun message => ⟨.warn, .source, message⟩

namespace ShowRequest

/-- An entity in the format asked for. -/
def write (r : ShowRequest) (e : Entity) : String :=
  match r.format with
  | .json => e.toJson.pretty 0 ++ "\n"
  | .ndjson => e.toJson.compact ++ "\n"

def applicationFile (r : ShowRequest) (bytes : Bytes) (name : String) : Transcript :=
  match readApplication bytes name "" with
  | .error e => { error := some (.load e) }
  | .ok (app, remark) =>
    { log := remark.toList.map fun message => ⟨.debug, .application, message⟩
      stdout := r.write (.application app) }

def sourceFile (r : ShowRequest) (bytes : Bytes) (name : String) (encoding : EncodingChoice) :
    Transcript :=
  let (source, warning) := SourceText.ofBytes bytes (some r.input) encoding
  let parsed := parseUnit source.location source.contents name ""
  let log := sourceRecords warning ++ parsed.reports.flatMap (reportRecords source)
  match parsed.result with
  | .error e => { log, error := some (.parse e) }
  | .ok e =>
    let undocumented := if e.doc.isSome then []
      else [⟨.warn, .display, r.input ++ ": `" ++ name ++ "` has no docstring"⟩]
    { log := log ++ undocumented, stdout := r.write e }

/-- Shows the file at the input. -/
def file (r : ShowRequest) (disk : Disk) (encoding : EncodingChoice) : Transcript :=
  let name := (PathText.stem? r.input).getD ""
  match disk.read r.input with
  | .error f => { error := some (.read r.input f) }
  | .ok bytes =>
    if PathText.extension? r.input = some "mlapp" then r.applicationFile bytes name
    else r.sourceFile bytes name encoding

/-- The members with these keys, in the format asked for. -/
def writeMembers (r : ShowRequest) (tree : SourceTree) (item : Item) :
    List String → CatalogM String
  | [] => return ""
  | key :: r' => do
    let member ← tree.get? item key
    let more ← r.writeMembers tree item r'
    return (member.elim "" fun i => r.write i.entity) ++ more

/-- Shows what the input means, and the members of a module if they are asked for. -/
def name (r : ShowRequest) (tree : SourceTree) : CatalogM (Option String) := do
  match ← tree.resolve r.input r.within with
  | none => return none
  | some item =>
    let head := r.write item.entity
    if r.members then
      let keys ← tree.publicNames item
      let more ← r.writeMembers tree item (keys.getD [])
      return some (head ++ more)
    else return some head

def run (r : ShowRequest) (tree : SourceTree) : Transcript :=
  if tree.disk.isFile r.input then r.file tree.disk tree.settings.encoding
  else
    let (shown, c) := (r.name tree).run {}
    match shown with
    | some stdout => { log := c.log, stdout }
    | none => { log := c.log, error := some (.notFound r.input) }

end ShowRequest

/-- Puts spaces before a text up to a width. -/
def padLeft (width : Nat) (s : String) : String :=
  String.ofList (List.replicate (width - s.length) ' ') ++ s

def padRight (width : Nat) (s : String) : String :=
  s ++ String.ofList (List.replicate (width - s.length) ' ')

/-- The line that lists a token. -/
def tokenLine (t : Token) : String :=
  padLeft 5 (toString t.line) ++ "  " ++ padRight 13 t.kind.label ++ " " ++ Quoted.quote t.text ++
    "\n"

namespace TokensRequest

def run (r : TokensRequest) (tree : SourceTree) : Transcript :=
  match tree.disk.read r.input with
  | .error f => { error := some (.read r.input f) }
  | .ok bytes =>
    let (source, warning) := SourceText.ofBytes bytes (some r.input) tree.settings.encoding
    let text := if r.normalized then normalize (removeHeader source.contents) else source.contents
    let listed := (tokenize text).filter fun t => r.whitespace || t.kind != .whitespace
    { log := sourceRecords warning, stdout := String.join (listed.map tokenLine) }

end TokensRequest

/-- The lines that say what a name means. -/
def meaning (name : String) : Option Item → String
  | none => name ++ ": not found\n"
  | some item =>
    let full := item.entity.fullName
    let summary := (item.entity.doc.bind fun doc => (Text.lines doc.toList).head?).elim ""
      fun line => "    " ++ String.ofList line ++ "\n"
    name ++ ": " ++ item.entity.kind ++ " `" ++ full ++ "` (`" ++ DottedName.shortest full ++
      "`)\n" ++ summary

namespace ResolveRequest

/-- The lines for these names, and how many of them mean nothing. -/
def meanings (tree : SourceTree) (within : Option String) : List String → CatalogM (String × Nat)
  | [] => return ("", 0)
  | name :: r => do
    let item ← tree.resolve name within
    let (more, missing) ← meanings tree within r
    return (meaning name item ++ more, missing + if item.isSome then 0 else 1)

def run (r : ResolveRequest) (tree : SourceTree) : Transcript :=
  let ((stdout, missing), c) := (meanings tree r.within r.names).run {}
  { log := c.log
    stdout
    notices := c.diagnostics.map Diagnostic.display
    error := if missing = 0 then none else some (.namesNotFound missing r.names.length) }

end ResolveRequest

namespace Invocation

def run (i : Invocation) (disk : Disk) : Transcript :=
  match i.settings disk with
  | .error e => { error := some e }
  | .ok settings =>
    let tree : SourceTree := { disk, settings }
    match i.request with
    | .display r => r.run tree
    | .tokens r => r.run tree
    | .resolve r => r.run tree

end Invocation

/-- What is said of a command line that is not understood. -/
def usage : String :=
  "Usage: show INPUT [--within MODULE] [--members] [--format json|ndjson]\n" ++
  "       tokens FILE [--preprocess] [--whitespace]\n" ++
  "       resolve NAME... [--within MODULE]\n" ++
  "Options: --config FILE, --root DIR, --encoding LABEL\n"

/-- Carries out a command line. One that is not understood ends the program with code 2. -/
def execute (disk : Disk) (filter : LogFilter) (args : List String) : Outcome :=
  match Invocation.parse args with
  | none => { exitCode := 2, stdout := "", stderr := usage }
  | some i => (i.run disk).outcome filter

end Command

end MatlabOutline
