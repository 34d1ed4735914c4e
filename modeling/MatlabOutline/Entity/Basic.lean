import MatlabOutline.Attribute.Value
import MatlabOutline.Diagnostic
import MatlabOutline.Table
import MatlabOutline.Word

/-!
What a source tree documents: functions, classes with their properties and methods, scripts,
applications, and the folders that hold them.
-/

namespace MatlabOutline

/-- One entry of a size such as `(1,:)`. -/
inductive Dimension
  | fixed (n : Nat)
  /-- Any extent, written `:`. -/
  | any
deriving DecidableEq, Repr

/-- What a declaration says of a value: of an argument, a return value or a property. -/
structure ValueSpec where
  size : Option (List Dimension) := none
  typeName : Option String := none
  validators : Option (List String) := none
  /-- The source text of the default value. -/
  default : Option String := none
  doc : Option String := none
deriving DecidableEq, Repr

structure Argument where
  name : String
  spec : ValueSpec := {}
deriving DecidableEq, Repr

/-- Arguments in order. Names may repeat: each placeholder `~` has its own place. -/
abbrev Arguments := List Argument

structure FunctionDoc where
  name : String
  /-- The dotted name of the folder that holds the function. -/
  scope : String
  doc : Option String := none
  args : Arguments := []
  returns : Arguments := []
deriving DecidableEq, Repr

structure MethodDoc where
  function : FunctionDoc
  attrs : Table AttrValue := {}
  className : String
deriving DecidableEq, Repr

structure PropertyDoc where
  name : String
  className : String
  scope : String
  attrs : Table AttrValue := {}
  spec : ValueSpec := {}
deriving DecidableEq, Repr

structure ClassDoc where
  name : String
  scope : String
  attrs : Table AttrValue := {}
  /-- The superclasses as the source names them. -/
  superclasses : List String := []
  doc : Option String := none
  properties : Table PropertyDoc := {}
  methods : Table MethodDoc := {}
  /-- The line that declares the class. -/
  location : Location := {}
deriving DecidableEq, Repr

/-- A file of statements that declares no function or class. -/
structure ScriptDoc where
  name : String
  scope : String
  doc : Option String := none
  body : String
deriving DecidableEq, Repr

structure ApplicationDoc where
  name : String
  scope : String
  doc : Option String := none
deriving DecidableEq, Repr

/-- A folder of source files. -/
structure ModuleDoc where
  /-- The dotted name from the source root, empty for the root. -/
  name : String
  path : String
  doc : Option String := none
deriving DecidableEq, Repr

inductive Entity
  | module (m : ModuleDoc)
  | cls (c : ClassDoc)
  | function (f : FunctionDoc)
  | script (s : ScriptDoc)
  | application (a : ApplicationDoc)
deriving DecidableEq, Repr

namespace Dimension

def display : Dimension → String
  | fixed n => toString n
  | any => ":"

end Dimension

namespace Arguments

def ofNames (names : List String) : Arguments :=
  names.map fun name => { name := name }

def names (args : Arguments) : List String :=
  args.map Argument.name

/-- Adds an argument of which nothing is said. -/
def push (args : Arguments) (name : String) : Arguments :=
  args ++ [{ name := name }]

/-- The first argument called `name`. -/
def get? (args : Arguments) (name : String) : Option Argument :=
  args.find? (·.name == name)

/-- Changes what is said of the first argument called `name`, which is added at the end if there
is none. -/
def modify (name : String) (f : ValueSpec → ValueSpec) : Arguments → Arguments
  | [] => [{ name, spec := f {} }]
  | a :: r => if a.name = name then { a with spec := f a.spec } :: r else a :: modify name f r

/-- Sets what is said of the first argument called `name`. -/
def specify (args : Arguments) (name : String) (spec : ValueSpec) : Arguments :=
  modify name (fun _ => spec) args

end Arguments

namespace MethodDoc

/-- Method names have no dots: the accessor `get.Value` is called `get_Value`. -/
def normalName (name : String) : String :=
  String.ofList (name.toList.map fun c => if c = '.' then '_' else c)

def ofFunction (f : FunctionDoc) (attrs : Table AttrValue) (className : String) : MethodDoc where
  function := { f with name := normalName f.name }
  attrs := attrs
  className := className

def isStatic (m : MethodDoc) : Bool :=
  m.attrs.get? "Static" == some (.bool true)

end MethodDoc

namespace ClassDoc

def fullName (c : ClassDoc) : String :=
  joinName c.scope c.name

/-- A member by name, and whether it is a property or a method. Properties come first. -/
def member? (c : ClassDoc) (name : String) : Option (PropertyDoc ⊕ MethodDoc) :=
  match c.properties.get? name with
  | some p => some (.inl p)
  | none => (c.methods.get? name).map .inr

end ClassDoc

namespace ModuleDoc

/-- The dotted name of the enclosing folder, empty at the top. -/
def package (m : ModuleDoc) : String :=
  String.ofList (Text.joinWith '.' (Text.splitAt '.' m.name.toList).dropLast)

end ModuleDoc

namespace Entity

def kind : Entity → String
  | module _ => "module"
  | cls _ => "class"
  | function _ => "function"
  | script _ => "script"
  | application _ => "application"

def name : Entity → String
  | module m => m.name
  | cls c => c.name
  | function f => f.name
  | script s => s.name
  | application a => a.name

def scope : Entity → String
  | module m => m.package
  | cls c => c.scope
  | function f => f.scope
  | script s => s.scope
  | application a => a.scope

def doc : Entity → Option String
  | module m => m.doc
  | cls c => c.doc
  | function f => f.doc
  | script s => s.doc
  | application a => a.doc

/-- The dotted name from the source root. -/
def fullName : Entity → String
  | module m => m.name
  | e => joinName e.scope e.name

end Entity

end MatlabOutline
