import MatlabOutline.Catalog.Folder

/-!
Finding entities by name: by the path in the source tree, by the name that code uses, and as seen
from a module.
-/

namespace MatlabOutline

namespace DottedName

/-- Cuts a name before its last part. -/
def splitLast (dotted : String) : String × String :=
  match (segments dotted).reverse with
  | last :: outer => (ofSegments outer.reverse, String.ofList last)
  | [] => ("", dotted)

/-- A name without the mark of a class folder. -/
def withoutMark (name : String) : String :=
  match name.toList with
  | '@' :: r => String.ofList r
  | _ => name

end DottedName

namespace SourceTree

open Catalog

/-- The entity with a name such as `target.+pkg.@Cls` or `target.+pkg.func`. The class in a class
folder can also be named by its file, `x.@Cls.Cls`. -/
def entity (tree : SourceTree) (name : String) : CatalogM (Option Item) := do
  let name := DottedName.classFolderName name
  match ← tree.module name with
  | some item => return some item
  | none =>
    let (outer, last) := DottedName.splitLast name
    match ← tree.module outer with
    | some item => tree.get? item (DottedName.withoutMark last)
    | none => return none

/-- The name of the package reached from module `outer` by `packages`. -/
def packageName (outer : String) (packages : List String) : String :=
  packages.foldl (fun name package => joinName name ("+" ++ package)) outer

/-- What a module means by `packages` and `last`: a file or class folder called `last`, and else a
package of that name. -/
def findIn (tree : SourceTree) (outer : String) (packages : List String) (last : String) :
    CatalogM (Option Item) := do
  match ← tree.module (packageName outer packages) with
  | none => return none
  | some item =>
    let plain ← tree.get? item last
    match plain.filter (·.module?.isNone) with
    | some found => return some found
    | none =>
      let package ← tree.get? item ("+" ++ last)
      return package.filter (·.module?.isSome)

/-- The plain folders among the members of a module: neither packages nor private. -/
def plainFolders (t : Table Item) : List String :=
  t.entries.filterMap fun (key, item) =>
    match item.module? with
    | some m => if key.toList.head? = some '+' || key = "private" then none else some m.name
    | none => none

/-- Searches folders in order. If none has the name, gives the plain folders in them. -/
def searchLevel (tree : SourceTree) (packages : List String) (last : String) :
    List String → CatalogM (Item ⊕ List String)
  | [] => return .inr []
  | folder :: r => do
    match ← tree.module folder with
    | none => tree.searchLevel packages last r
    | some item =>
      match ← tree.findIn folder packages last with
      | some found => return .inl found
      | none =>
        let t ← tree.members item
        match ← tree.searchLevel packages last r with
        | .inl found => return .inl found
        | .inr more => return .inr ((t.elim [] plainFolders) ++ more)

/-- Searches the folders of a level, then those in them, to at most `depth` levels. -/
def searchLevels (tree : SourceTree) (packages : List String) (last : String) (depth : Nat)
    (folders : List String) : CatalogM (Option Item) := do
  match depth, folders with
  | _, [] => return none
  | 0, _ => return none
  | n + 1, folders =>
    match ← tree.searchLevel packages last folders with
    | .inl found => return some found
    | .inr inner => tree.searchLevels packages last n inner

/-- How deep modules can lie: as deep as folders on the disk, or as a module that is already in the
catalog. -/
def depthBound (tree : SourceTree) (c : Catalog) : Nat :=
  let known := c.modules.keys.map fun name => (DottedName.segments name).length
  tree.disk.root.height + known.foldl max 0 + 1

/-- Searches the plain folders of the source tree, those nearest to the root first. -/
def loadCodeName (tree : SourceTree) (name : String) : CatalogM Lookup := do
  let (outer, last) := DottedName.splitLast name
  let packages := if outer.isEmpty then []
    else (DottedName.segments outer).map String.ofList
  match ← tree.searchLevels packages last (tree.depthBound (← get)) [""] with
  | some item =>
    note .debug .catalog ("found `" ++ name ++ "` as `" ++ item.entity.fullName ++ "`")
    return .found item
  | none => return .missing

/-- What code means by a name such as `pkg.Cls`. -/
def codeName (tree : SourceTree) (name : String) : CatalogM (Option Item) := do
  if isDottedIdentifier name then
    let result ← onceName name (tree.loadCodeName name)
    return result.item?
  else return none

/-- What `name` means without regard to a module. -/
def resolveGlobal (tree : SourceTree) (name : String) : CatalogM (Option Item) := do
  match ← tree.entity name with
  | some item => return some item
  | none => tree.codeName name

/-- What `name` means as seen from the module `within`: relative to it if possible, then as a path
in the source tree, then as a name that code uses. -/
def resolve (tree : SourceTree) (name : String) (within : Option String) :
    CatalogM (Option Item) := do
  match within.filter (!·.isEmpty) with
  | none => tree.resolveGlobal name
  | some scope =>
    match ← tree.entity (joinName scope name) with
    | some item => return some item
    | none => tree.resolveGlobal name

end SourceTree

end MatlabOutline
