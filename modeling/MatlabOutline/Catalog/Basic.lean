import MatlabOutline.Disk
import MatlabOutline.Entity.Basic
import MatlabOutline.Log
import MatlabOutline.Settings

/-!
Catalogs: what has been loaded from a source tree, and what was reported on the way. Every result
is kept under its key, failures included, so nothing is loaded twice until the catalog is reset.
-/

namespace MatlabOutline

/-- A source tree: files, and the settings that say where in them it is. -/
structure SourceTree where
  disk : Disk
  settings : Settings

/-- A loaded entity. The serial number tells it from other loads of the same file. -/
structure Item where
  serial : Nat
  entity : Entity
deriving DecidableEq, Repr

/-- What a lookup came to. -/
inductive Lookup
  | found (item : Item)
  /-- The file is there but could not be loaded; the diagnostics say why. -/
  | failed
  | missing
deriving DecidableEq, Repr

/-- What can be loaded. -/
inductive Key
  /-- A folder, by dotted name. -/
  | module (name : String)
  /-- A source file or class folder, by path. -/
  | file (path : String)
  /-- A name such as `pkg.Cls` that code uses. -/
  | name (name : String)
  /-- The members of a folder, by its serial number. -/
  | members (serial : Nat)
  /-- The superclasses of a class, by its serial number. -/
  | bases (serial : Nat)
deriving DecidableEq, Repr

structure Catalog where
  modules : Table Lookup := {}
  files : Table Lookup := {}
  names : Table Lookup := {}
  /-- The members of the folders that were listed, by serial number. -/
  members : List (Nat × Table Item) := []
  /-- The superclasses of the classes that were asked for them, by serial number. -/
  bases : List (Nat × List Item) := []
  /-- What was loaded since the last reset, the latest first. -/
  begun : List Key := []
  /-- The next serial number. -/
  next : Nat := 0
  diagnostics : List Diagnostic := []
  log : List LogRecord := []

/-- Computations that load into a catalog. -/
abbrev CatalogM := StateM Catalog

namespace Lookup

def item? : Lookup → Option Item
  | found item => some item
  | failed => none
  | missing => none

end Lookup

namespace Item

def module? (i : Item) : Option ModuleDoc :=
  match i.entity with
  | .module m => some m
  | _ => none

def class? (i : Item) : Option ClassDoc :=
  match i.entity with
  | .cls c => some c
  | _ => none

def function? (i : Item) : Option FunctionDoc :=
  match i.entity with
  | .function f => some f
  | _ => none

end Item

namespace Catalog

/-- Forgets every result and diagnostic. Items that are still in use keep their members and
superclasses. -/
def reset (c : Catalog) : Catalog :=
  { c with modules := {}, files := {}, names := {}, begun := [], diagnostics := [] }

/-- Adds a diagnostic. -/
def record (d : Diagnostic) : CatalogM Unit :=
  modify fun c => { c with diagnostics := c.diagnostics ++ [d] }

def note (level : LogLevel) (origin : LogOrigin) (message : String) : CatalogM Unit :=
  modify fun c => { c with log := c.log ++ [{ level, origin, message }] }

/-- Logs a diagnostic and records it. -/
def report (level : LogLevel) (d : Diagnostic) : CatalogM Unit := do
  note level .catalog d.display
  record d

/-- Gives an entity the next serial number. -/
def number (e : Entity) : CatalogM Item := do
  let c ← get
  set { c with next := c.next + 1 }
  return { serial := c.next, entity := e }

/-- Notes that the loading of `key` begins. -/
def start (key : Key) : CatalogM Unit :=
  modify fun c => { c with begun := key :: c.begun }

/-- Loads what `key` stands for, unless it is known, and keeps the result. -/
def once {α : Type} (key : Key) (known : Catalog → Option α) (keep : α → Catalog → Catalog)
    (load : CatalogM α) : CatalogM α := do
  match known (← get) with
  | some result => return result
  | none =>
    start key
    let result ← load
    modify (keep result)
    return result

/-- The module with this name, loaded by `load` on its first lookup. -/
def onceModule (name : String) (load : CatalogM Lookup) : CatalogM Lookup :=
  once (.module name) (·.modules.get? name)
    (fun result c => { c with modules := c.modules.insert name result }) load

/-- The file or class folder at this path, loaded by `load` on its first lookup. -/
def onceFile (path : String) (load : CatalogM Lookup) : CatalogM Lookup :=
  let key := PathText.normal path
  once (.file key) (·.files.get? key)
    (fun result c => { c with files := c.files.insert key result }) load

/-- What code means by this name, found by `load` on its first lookup. -/
def onceName (name : String) (load : CatalogM Lookup) : CatalogM Lookup :=
  once (.name name) (·.names.get? name)
    (fun result c => { c with names := c.names.insert name result }) load

/-- The members of the folder with this serial number, listed by `load` at first. -/
def onceMembers (serial : Nat) (load : CatalogM (Table Item)) : CatalogM (Table Item) :=
  once (.members serial) (·.members.lookup serial)
    (fun result c => { c with members := (serial, result) :: c.members }) load

/-- The superclasses of the class with this serial number, found by `load` at first. -/
def onceBases (serial : Nat) (load : CatalogM (List Item)) : CatalogM (List Item) :=
  once (.bases serial) (·.bases.lookup serial)
    (fun result c => { c with bases := (serial, result) :: c.bases }) load

/-- A result that is known is given again, and the catalog stays as it is. -/
theorem once_of_known {α : Type} (key : Key) (known : Catalog → Option α)
    (keep : α → Catalog → Catalog) (load : CatalogM α) (c : Catalog) (a : α)
    (h : known c = some a) : (once key known keep load).run c = (a, c) := by
  simp only [once, StateT.run_bind, StateT.run_get, pure_bind, h, StateT.run_pure]
  rfl

end Catalog

end MatlabOutline
