import MatlabOutline.Text.Blank

/-!
Command-line arguments: options with and without values, and the words between them.
-/

namespace MatlabOutline

namespace Command

/-- An option that a command takes. -/
structure OptionSpec where
  long : String
  short : Option Char := none
  takesValue : Bool := true
deriving DecidableEq, Repr

/-- Arguments taken apart. -/
structure Scanned where
  /-- The options given, each with its value, which is empty for one that takes none. -/
  options : List (String × String) := []
  words : List String := []
deriving DecidableEq, Repr

namespace Scanned

def value? (s : Scanned) (long : String) : Option String :=
  s.options.lookup long

def has (s : Scanned) (long : String) : Bool :=
  (s.value? long).isSome

/-- Puts an option before the rest. No option may be given twice. -/
def addOption (long value : String) (rest : Option Scanned) : Option Scanned :=
  match rest with
  | some s => if s.has long then none else some { s with options := (long, value) :: s.options }
  | none => none

def addWord (word : String) (rest : Option Scanned) : Option Scanned :=
  rest.map fun s => { s with words := word :: s.words }

end Scanned

/-- An argument that is an option or looks like one. A dash alone is a word. -/
def isOption (arg : String) : Bool :=
  arg.toList.head? = some '-' && arg ≠ "-"

/-- How an argument names an option: the option, and the value that is part of the argument. -/
def named (specs : List OptionSpec) (arg : String) : Option (OptionSpec × Option String) :=
  match arg.toList with
  | '-' :: '-' :: r =>
    let long := String.ofList (r.takeWhile (· != '='))
    let attached := match r.dropWhile (· != '=') with
      | _ :: v => some (String.ofList v)
      | [] => none
    (specs.find? (·.long = long)).map fun spec => (spec, attached)
  | '-' :: c :: r =>
    let attached := match r with
      | [] => none
      | '=' :: v => some (String.ofList v)
      | v => some (String.ofList v)
    (specs.find? (·.short = some c)).map fun spec => (spec, attached)
  | _ => none

/-- Takes all arguments apart, or none if an option is unknown, lacks its value, has one that it
should not have, or is given twice. After `--` all arguments are words. -/
def scan (specs : List OptionSpec) : List String → Option Scanned
  | [] => some {}
  | "--" :: r => some { words := r }
  | arg :: r =>
    if isOption arg then
      match named specs arg with
      | none => none
      | some (spec, some value) =>
        if spec.takesValue then Scanned.addOption spec.long value (scan specs r) else none
      | some (spec, none) =>
        if spec.takesValue then
          match r with
          | value :: r => if isOption value then none
            else Scanned.addOption spec.long value (scan specs r)
          | [] => none
        else Scanned.addOption spec.long "" (scan specs r)
    else Scanned.addWord arg (scan specs r)

/-- Cuts arguments before the first word that no `--` precedes. -/
def beforeWord (specs : List OptionSpec) : List String → List String × List String
  | [] => ([], [])
  | "--" :: r => ("--" :: r, [])
  | arg :: r =>
    if isOption arg then
      match named specs arg, r with
      | some (⟨_, _, true⟩, none), value :: r =>
        let (before, rest) := beforeWord specs r
        (arg :: value :: before, rest)
      | _, r =>
        let (before, rest) := beforeWord specs r
        (arg :: before, rest)
    else ([], arg :: r)

end Command

end MatlabOutline
