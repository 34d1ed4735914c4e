import MatlabOutline.PathText
import MatlabOutline.ReadFault
import MatlabOutline.Text.Utf8

/-!
Files and folders, and what a path leads to.
-/

namespace MatlabOutline

inductive FileTree
  | file (contents : Bytes)
  /-- No two entries have the same name. -/
  | folder (entries : List (String × FileTree))

/-- All files, and the folder from which relative paths start. -/
structure Disk where
  root : FileTree := .folder []
  /-- The names on the way from the root to the folder. -/
  base : List String := []

namespace FileTree

def isFolder : FileTree → Bool
  | folder _ => true
  | file _ => false

def entries : FileTree → List (String × FileTree)
  | folder es => es
  | file _ => []

def child? (t : FileTree) (name : String) : Option FileTree :=
  t.entries.lookup name

/-- Replaces or adds the entry called `name`. -/
def setChild (t : FileTree) (name : String) (child : FileTree) : FileTree :=
  folder ((t.entries.filter (·.1 != name)) ++ [(name, child)])

/-- Puts `f` of what stands at a place there. Folders on the way are made if they are missing. -/
def update (f : Option FileTree → FileTree) : List String → Option FileTree → FileTree
  | [], here => f here
  | name :: r, here =>
    let above := here.getD (folder [])
    above.setChild name (update f r (above.child? name))

/-- Takes out what stands at a place. -/
def erase (t : FileTree) : List String → FileTree
  | [] => t
  | [name] => folder (t.entries.filter (·.1 != name))
  | name :: r =>
    match t.child? name with
    | some child => t.setChild name (child.erase r)
    | none => t

/-- The names in a folder, in order. -/
def names (t : FileTree) : List String :=
  (t.entries.map Prod.fst).mergeSort fun a b => a ≤ b

/-- How many folders and files stand within each other at most. -/
def height : FileTree → Nat
  | file _ => 1
  | folder es => heights es + 1
where
  heights : List (String × FileTree) → Nat
    | [] => 0
    | (_, t) :: r => max t.height (heights r)

/-- Follows the parts of a path from `here`, which stands below the folders `above`, the innermost
first. The root stands above itself. -/
def follow (above : List FileTree) (here : FileTree) : List String → Except ReadFault FileTree
  | [] => .ok here
  | part :: r =>
    if !here.isFolder then .error .notFolder
    else if part.isEmpty || part = "." then follow above here r
    else if part = ".." then
      match above with
      | [] => follow [] here r
      | outer :: more => follow more outer r
    else match here.child? part with
      | some child => follow (here :: above) child r
      | none => .error .notFound

end FileTree

namespace Disk

/-- The parts of a path from the root. -/
def partsOf (d : Disk) (path : String) : List String :=
  let parts := (Text.splitAt '/' path.toList).map String.ofList
  if path.toList.head? = some '/' then parts else d.base ++ parts

/-- What a path leads to. -/
def find (d : Disk) (path : String) : Except ReadFault FileTree :=
  if path.isEmpty then .error .notFound else d.root.follow [] (d.partsOf path)

def isFolder (d : Disk) (path : String) : Bool :=
  match d.find path with
  | .ok t => t.isFolder
  | .error _ => false

def isFile (d : Disk) (path : String) : Bool :=
  match d.find path with
  | .ok t => !t.isFolder
  | .error _ => false

def read (d : Disk) (path : String) : Except ReadFault Bytes :=
  match d.find path with
  | .ok (.file contents) => .ok contents
  | .ok (.folder _) => .error .isFolder
  | .error f => .error f

/-- The names in a folder, in order. -/
def list (d : Disk) (path : String) : Except ReadFault (List String) :=
  match d.find path with
  | .ok t => if t.isFolder then .ok t.names else .error .notFolder
  | .error f => .error f

/-- Takes the way that parts go, where `gone` is the way so far, the last name first. -/
def placeFrom (gone : List String) : List String → List String
  | [] => gone.reverse
  | part :: r =>
    if part.isEmpty || part = "." then placeFrom gone r
    else if part = ".." then placeFrom gone.tail r
    else placeFrom (part :: gone) r

/-- The names on the way from the root to a path, whether anything is there or not. -/
def placeOf (d : Disk) (path : String) : List String :=
  placeFrom [] (d.partsOf path)

/-- Puts a file or folder in place of what stands at a path. -/
def write (d : Disk) (path : String) (t : FileTree) : Disk :=
  { d with root := FileTree.update (fun _ => t) (d.placeOf path) (some d.root) }

/-- Makes a folder unless there is one. -/
def makeFolder (d : Disk) (path : String) : Disk :=
  let keep : Option FileTree → FileTree
    | some (.folder es) => .folder es
    | _ => .folder []
  { d with root := FileTree.update keep (d.placeOf path) (some d.root) }

def remove (d : Disk) (path : String) : Disk :=
  { d with root := d.root.erase (d.placeOf path) }

end Disk

end MatlabOutline
