import MatlabOutline.Catalog.File
import MatlabOutline.DottedName

/-!
Loading folders: modules, class folders, and the members of a module.
-/

namespace MatlabOutline

namespace SourceTree

open Catalog

/-- The file whose comment documents the folder that holds it. -/
def contentsFile : String :=
  "Contents.m"

/-- The path of the module called `dotted`. -/
def modulePath (tree : SourceTree) (dotted : String) : String :=
  if dotted.isEmpty then tree.settings.root
  else ((DottedName.segments dotted).map String.ofList).foldl PathText.join tree.settings.root

/-- Whether a name can be that of a module: no part is empty or names a class folder. -/
def isModuleName (dotted : String) : Bool :=
  dotted.isEmpty ||
    (DottedName.segments dotted).all fun part => !part.isEmpty && part.head? != some '@'

/-- What the contents file of a folder says of the folder. -/
def folderDoc (tree : SourceTree) (path dotted : String) : CatalogM (Option String) := do
  let contents := PathText.join path contentsFile
  if tree.disk.isFile contents then
    let item ← tree.file contents dotted
    return item.bind (·.entity.doc)
  else return none

/-- Loads a module. -/
def loadModule (tree : SourceTree) (dotted : String) : CatalogM Lookup := do
  let path := tree.modulePath dotted
  if isModuleName dotted && tree.disk.isFolder path then
    note .debug .catalog ("loading module `" ++ dotted ++ "` from " ++ path)
    let doc ← tree.folderDoc path dotted
    return .found (← number (.module { name := dotted, path, doc }))
  else return .missing

/-- The module with a dotted name such as `target.+pkg`; the empty name is that of the root. -/
def module (tree : SourceTree) (dotted : String) : CatalogM (Option Item) := do
  let result ← onceModule dotted (tree.loadModule dotted)
  return result.item?

end SourceTree

namespace ClassDoc

/-- Puts a function from a file of its own in place of the declaration of the method. What the
declaration says of attributes stays, and so does its docstring if the file has none. -/
def mergeMethod (c : ClassDoc) (f : FunctionDoc) : ClassDoc :=
  let method := match c.methods.get? f.name with
    | some declared =>
      MethodDoc.ofFunction { f with doc := f.doc <|> declared.function.doc } declared.attrs c.name
    | none => MethodDoc.ofFunction f {} c.name
  { c with methods := c.methods.insert method.function.name method }

end ClassDoc

namespace Catalog

/-- Gives a class a number of its own. It has the superclasses of the class that it was made from,
if those are known. -/
def numberCopy (made : ClassDoc) (origin : Item) : CatalogM Item := do
  let item ← number (.cls made)
  match (← get).bases.lookup origin.serial with
  | some bases =>
    modify fun c => { c with bases := (item.serial, bases) :: c.bases }
    return item
  | none => return item

end Catalog

namespace SourceTree

open Catalog

/-- Whether a file in a class folder may define a method of the class. -/
def isMethodFile (tree : SourceTree) (classFile path : String) : Bool :=
  PathText.normal path != PathText.normal classFile && PathText.extension? path == some "m" &&
    tree.disk.isFile path

/-- Merges the methods that the files at `paths` define into a class. -/
def mergeFiles (tree : SourceTree) (scope : String) (c : ClassDoc) :
    List String → CatalogM ClassDoc
  | [] => return c
  | path :: r => do
    match ← tree.file path scope with
    | none => tree.mergeFiles scope c r
    | some item =>
      match item.function? with
      | some f => tree.mergeFiles scope (c.mergeMethod f) r
      | none =>
        note .warn .catalog (path ++ ": expected a method of `" ++ c.name ++ "` but found a " ++
          item.entity.kind)
        tree.mergeFiles scope c r

/-- Loads a class folder: the class in its class file with the methods in the other files. -/
def loadClassFolder (tree : SourceTree) (path name scope : String) : CatalogM Lookup := do
  let classFile := PathText.join path (name ++ ".m")
  match ← tree.file classFile scope with
  | none => return .missing
  | some item =>
    match item.class? with
    | none => return .found item
    | some c =>
      match tree.disk.list path with
      | .error f =>
        fail path (.read f)
        return .failed
      | .ok names =>
        let paths := (names.map (PathText.join path)).filter (tree.isMethodFile classFile)
        let merged ← tree.mergeFiles scope c paths
        return .found (← numberCopy merged item)

/-- The class in the class folder at `path`. -/
def classFolder (tree : SourceTree) (path name scope : String) : CatalogM (Option Item) := do
  let result ← onceFile path (tree.loadClassFolder path name scope)
  return result.item?

/-- The key and the item of an entry in a module's folder, if entries like it are members. -/
def member (tree : SourceTree) (m : ModuleDoc) (name : String) :
    CatalogM (Option (String × Option Item)) := do
  let path := PathText.join m.path name
  match name.toList with
  | '.' :: _ => return none
  | cs =>
    if tree.disk.isFolder path then
      match cs with
      | '@' :: cls =>
        let cls := String.ofList cls
        return some (cls, ← tree.classFolder path cls m.name)
      | _ => return some (name, ← tree.module (joinName m.name name))
    else if name = contentsFile then return none
    else
      let stem := (PathText.stem? path).getD ""
      let extension := PathText.extension? path
      if isIdentifier stem && (extension == some "m" || extension == some "mlapp") then
        return some (stem, ← tree.file path m.name)
      else return none

/-- Adds the entries of a module's folder to its members. Of two entries with one key the first
counts. -/
def addMembers (tree : SourceTree) (m : ModuleDoc) (t : Table Item) :
    List String → CatalogM (Table Item)
  | [] => return t
  | name :: r => do
    match ← tree.member m name with
    | some (key, some item) =>
      if t.contains key then
        note .warn .catalog (m.path ++ ": `" ++ key ++ "` is declared more than once")
        tree.addMembers m t r
      else tree.addMembers m (t.insert key item) r
    | _ => tree.addMembers m t r

/-- Lists a module. -/
def loadMembers (tree : SourceTree) (m : ModuleDoc) : CatalogM (Table Item) := do
  match tree.disk.list m.path with
  | .error f =>
    fail m.path (.read f)
    return {}
  | .ok names => tree.addMembers m {} names

/-- The members of a module in the order of their file names, or none of what is no module. -/
def members (tree : SourceTree) (item : Item) : CatalogM (Option (Table Item)) := do
  match item.module? with
  | some m => return some (← onceMembers item.serial (tree.loadMembers m))
  | none => return none

/-- The member of a module with this key. -/
def get? (tree : SourceTree) (item : Item) (key : String) : CatalogM (Option Item) := do
  let t ← tree.members item
  return t.bind (·.get? key)

/-- The keys of the members of a module that are not private. -/
def publicNames (tree : SourceTree) (item : Item) : CatalogM (Option (List String)) := do
  let t ← tree.members item
  return t.map fun t => t.keys.filter (· != "private")

end SourceTree

end MatlabOutline
