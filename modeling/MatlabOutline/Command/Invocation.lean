import MatlabOutline.Command.Arguments
import MatlabOutline.Text.Encoding

/-!
Invocations: what the command line asks for.
-/

namespace MatlabOutline

namespace Command

inductive ShowFormat
  /-- An item a line, indented. -/
  | json
  /-- An entity a line. -/
  | ndjson
deriving DecidableEq, Repr

/-- Shows a file, or what a name means. -/
structure ShowRequest where
  input : String
  within : Option String := none
  members : Bool := false
  format : ShowFormat := .json
deriving DecidableEq, Repr

/-- Lists the tokens of a file. -/
structure TokensRequest where
  input : String
  /-- Whether to list them as the reader of declarations sees them. -/
  normalized : Bool := false
  whitespace : Bool := false
deriving DecidableEq, Repr

/-- Says what names mean. -/
structure ResolveRequest where
  names : List String
  within : Option String := none
deriving DecidableEq, Repr

inductive Request
  | display (r : ShowRequest)
  | tokens (r : TokensRequest)
  | resolve (r : ResolveRequest)
deriving DecidableEq, Repr

/-- A request, and the options that every request takes. -/
structure Invocation where
  config : Option String := none
  root : Option String := none
  encoding : Option EncodingChoice := none
  request : Request
deriving DecidableEq, Repr

def commonOptions : List OptionSpec :=
  [{ long := "config" }, { long := "root" }, { long := "encoding" }]

def showOptions : List OptionSpec :=
  [{ long := "within" }, { long := "members", takesValue := false },
    { long := "format", short := some 'f' }] ++ commonOptions

def tokensOptions : List OptionSpec :=
  [{ long := "preprocess", takesValue := false }, { long := "whitespace", takesValue := false }] ++
    commonOptions

def resolveOptions : List OptionSpec :=
  { long := "within" } :: commonOptions

namespace ShowFormat

def ofWord? : String → Option ShowFormat
  | "json" => some json
  | "ndjson" => some ndjson
  | _ => none

end ShowFormat

namespace ShowRequest

def ofScanned (s : Scanned) : Option ShowRequest := do
  let [input] := s.words | none
  let format ← ShowFormat.ofWord? ((s.value? "format").getD "json")
  return { input, within := s.value? "within", members := s.has "members", format }

end ShowRequest

namespace TokensRequest

def ofScanned (s : Scanned) : Option TokensRequest := do
  let [input] := s.words | none
  if input.isEmpty then none
  return { input, normalized := s.has "preprocess", whitespace := s.has "whitespace" }

end TokensRequest

namespace ResolveRequest

def ofScanned (s : Scanned) : Option ResolveRequest :=
  if s.words.isEmpty then none else some { names := s.words, within := s.value? "within" }

end ResolveRequest

namespace Request

/-- Reads the arguments after the word that names the request. -/
def ofArguments (word : String) (args : List String) : Option (Request × Scanned) :=
  match word with
  | "show" => do
    let s ← scan showOptions args
    return (.display (← ShowRequest.ofScanned s), s)
  | "tokens" => do
    let s ← scan tokensOptions args
    return (.tokens (← TokensRequest.ofScanned s), s)
  | "resolve" => do
    let s ← scan resolveOptions args
    return (.resolve (← ResolveRequest.ofScanned s), s)
  | _ => none

end Request

namespace Invocation

/-- The encoding that a label names, or none if it names nothing. -/
def encodingOf : Option String → Option (Option EncodingChoice)
  | none => some none
  | some label => (EncodingChoice.ofLabel? label).map some

/-- Paths are not empty. -/
def isPath (value : Option String) : Bool :=
  value != some ""

/-- Reads the command line, or none if it is not understood. An option that is given both before and
after the word that names the request has the value after it. -/
def parse (args : List String) : Option Invocation := do
  let (before, word :: after) := beforeWord commonOptions args | none
  let outer ← scan commonOptions before
  let (request, inner) ← Request.ofArguments word after
  let pick := fun (long : String) => inner.value? long <|> outer.value? long
  let _ ← encodingOf (outer.value? "encoding")
  let encoding ← encodingOf (pick "encoding")
  if [outer, inner].all fun s => isPath (s.value? "config") && isPath (s.value? "root") then
    return { config := pick "config", root := pick "root", encoding, request }
  else none

end Invocation

end Command

end MatlabOutline
