import MatlabOutline.Catalog.Search

/-!
Superclasses: the classes that the names in a class declaration mean.
-/

namespace MatlabOutline

namespace ClassDoc

/-- A superclass that no source tree holds, because it comes with the language. -/
def isBuiltin (name : String) : Bool :=
  name = "handle" || "matlab.".toList.isPrefixOf name.toList

/-- What is wrong with a superclass that is no class. -/
def notClass (c : ClassDoc) (name kind : String) : String :=
  "superclass `" ++ name ++ "` of `" ++ c.fullName ++ "` is a " ++ kind ++ ", not a class"

def notFound (c : ClassDoc) (name : String) : String :=
  "superclass `" ++ name ++ "` of `" ++ c.fullName ++ "` not found"

end ClassDoc

namespace Catalog

/-- Warns about a superclass of `c`. -/
def warnSuperclass (c : ClassDoc) (text : String) : CatalogM Unit := do
  note .warn .superclass text
  record ⟨.warning, c.location, text⟩

end Catalog

namespace SourceTree

open Catalog

/-- The class that `name` means as a superclass of `c`, with a warning if there is none. -/
def superclass (tree : SourceTree) (c : ClassDoc) (name : String) : CatalogM (Option Item) := do
  match ← tree.resolve name (some c.scope) with
  | some item =>
    if item.class?.isSome then return some item
    else
      warnSuperclass c (c.notClass name item.entity.kind)
      return none
  | none =>
    if ClassDoc.isBuiltin name then
      note .debug .superclass (c.fullName ++ ": built-in superclass `" ++ name ++ "`")
      return none
    else
      warnSuperclass c (c.notFound name)
      return none

/-- The classes that names mean as superclasses of `c`, in order. -/
def loadBases (tree : SourceTree) (c : ClassDoc) : List String → CatalogM (List Item)
  | [] => return []
  | name :: r => do
    let item ← tree.superclass c name
    let more ← tree.loadBases c r
    return item.toList ++ more

/-- The superclasses of a class that can be found, or none of what is no class. -/
def bases (tree : SourceTree) (item : Item) : CatalogM (Option (List Item)) := do
  match item.class? with
  | some c => return some (← onceBases item.serial (tree.loadBases c c.superclasses))
  | none => return none

end SourceTree

end MatlabOutline
