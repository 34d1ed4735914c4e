import MatlabOutline.Application
import MatlabOutline.Catalog.Basic
import MatlabOutline.SourceText
import MatlabOutline.SourceUnit

/-!
Loading one file: the entity that a source file or an application declares.
-/

namespace MatlabOutline

namespace Catalog

/-- Records why a file or folder cannot be loaded. -/
def fail (path : String) (e : LoadError) : CatalogM Unit :=
  report .error ⟨.error, .ofFile path, e.message⟩

/-- Passes on the reports that reading a unit made. -/
def reportAll : List Report → CatalogM Unit
  | [] => return ()
  | .warning d :: r => do
    report .warn d
    reportAll r
  | .detail message :: r => do
    note .debug .declaration message
    reportAll r

/-- The entity that a read source text declares. -/
def unitEntity (source : SourceText) (name scope : String) : CatalogM Lookup := do
  let parsed := parseUnit source.location source.contents name scope
  reportAll parsed.reports
  match parsed.result with
  | .ok e => return .found (← number e)
  | .error e =>
    report .error ⟨.error, e.location, e.fault.message⟩
    return .failed

end Catalog

namespace SourceTree

open Catalog

/-- Loads a source file. -/
def loadSource (tree : SourceTree) (path name scope : String) : CatalogM Lookup := do
  match tree.disk.read path with
  | .error f =>
    fail path (.read f)
    return .failed
  | .ok bytes =>
    let (source, warning) := SourceText.ofBytes bytes (some path) tree.settings.encoding
    match warning with
    | some message => note .warn .source message
    | none => pure ()
    unitEntity source name scope

/-- Loads an application. -/
def loadApplication (tree : SourceTree) (path name scope : String) : CatalogM Lookup := do
  match (tree.disk.read path).mapError .read >>= (readApplication · name scope) with
  | .error e =>
    fail path e
    return .failed
  | .ok (app, remark) =>
    match remark with
    | some message => note .debug .application message
    | none => pure ()
    return .found (← number (.application app))

/-- The entity that the file at `path` declares, as a member of the folder called `scope`. -/
def file (tree : SourceTree) (path scope : String) : CatalogM (Option Item) := do
  let name := (PathText.stem? path).getD ""
  let result ← onceFile path <|
    if PathText.extension? path = some "mlapp" then tree.loadApplication path name scope
    else tree.loadSource path name scope
  return result.item?

end SourceTree

end MatlabOutline
