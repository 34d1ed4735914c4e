import MatlabOutline.Proofs.Catalog.Paths
import MatlabOutline.Proofs.WellFormed.Declarations

/-!
Loading one file. What a file declares, and what is reported of it, does not depend on the catalog
that it is loaded into.
-/

namespace MatlabOutline

namespace Table

theorem mem_entries_of_get? {α : Type} {t : Table α} {key : String} {a : α}
    (found : t.get? key = some a) : (key, a) ∈ t.entries := by
  obtain ⟨l⟩ := t
  simp only [get?] at found
  induction l with
  | nil => cases found
  | cons e l ih =>
    rw [lookup] at found
    split at found
    · next same =>
      cases found
      rw [← same]
      exact List.mem_cons_self
    · exact List.mem_cons_of_mem e (ih found)

theorem mem_entries_insert {α : Type} {t : Table α} {key : String} {a : α} {e : String × α}
    (member : e ∈ (t.insert key a).entries) : e = (key, a) ∨ e ∈ t.entries := by
  obtain ⟨l⟩ := t
  simp only [insert] at member ⊢
  induction l with
  | nil => exact .inl (by simpa [put] using member)
  | cons first l ih =>
    rw [put] at member
    split at member
    · next same =>
      rcases List.mem_cons.mp member with rfl | later
      · exact .inl (by rw [same])
      · exact .inr (List.mem_cons_of_mem _ later)
    · rcases List.mem_cons.mp member with rfl | later
      · exact .inr List.mem_cons_self
      · exact (ih later).imp_right (List.mem_cons_of_mem _)

section Map

variable {α β : Type} (f : α → β)

theorem get?_map (t : Table α) (key : String) : (t.map f).get? key = (t.get? key).map f := by
  obtain ⟨l⟩ := t
  simp only [map, get?]
  induction l with
  | nil => rfl
  | cons e l ih =>
    rw [List.map_cons, lookup, lookup]
    split
    · rfl
    · exact ih

theorem contains_map (t : Table α) (key : String) : (t.map f).contains key = t.contains key := by
  rw [contains, contains, get?_map, Option.isSome_map]

theorem map_insert (t : Table α) (key : String) (a : α) :
    (t.insert key a).map f = (t.map f).insert key (f a) := by
  obtain ⟨l⟩ := t
  simp only [map, insert, mk.injEq]
  induction l with
  | nil => rfl
  | cons e l ih =>
    rw [put, List.map_cons, put]
    split
    · rfl
    · rw [List.map_cons, ih]

end Map

end Table

/-- What is recorded of a report. -/
def Report.diagnostic? : Report → Option Diagnostic
  | warning d => some d
  | detail _ => none

/-- The diagnostics of a unit: its warnings, and the error that it ends with if it declares nothing. -/
def Parsed.diagnostics (p : Parsed) : List Diagnostic :=
  p.reports.filterMap Report.diagnostic? ++
    match p.result with
    | .ok _ => []
    | .error e => [⟨.error, e.location, e.fault.message⟩]

theorem Parsed.ok_of_toOption {p : Parsed} {e : Entity} (there : p.result.toOption = some e) :
    p.result = .ok e := by
  cases read : p.result with
  | error f => simp [read, Except.toOption] at there
  | ok e' => simpa [read, Except.toOption] using there

namespace Catalog

variable {α β : Type}

theorem run_bind (act : CatalogM α) (f : α → CatalogM β) (c : Catalog) :
    (act >>= f).run c = (f (act.run c).1).run (act.run c).2 :=
  rfl

theorem run_pure (a : α) (c : Catalog) : (pure a : CatalogM α).run c = (a, c) :=
  rfl

/-- A computation that makes remarks and records the diagnostics `ds`, but looks nothing up. -/
def Remarks (act : CatalogM α) (ds : List Diagnostic) : Prop :=
  ∀ c, ∃ log, (act.run c).2 = { c with diagnostics := c.diagnostics ++ ds, log := log }

theorem remarks_pure (a : α) : Remarks (pure a : CatalogM α) [] :=
  fun c => ⟨c.log, by rw [run_pure, List.append_nil]⟩

theorem remarks_note (level : LogLevel) (origin : LogOrigin) (message : String) :
    Remarks (note level origin message) [] :=
  fun c => ⟨_, by
    rw [List.append_nil]
    rfl⟩

theorem remarks_record (d : Diagnostic) : Remarks (record d) [d] :=
  fun c => ⟨c.log, rfl⟩

theorem Remarks.bind {act : CatalogM α} {f : α → CatalogM β} {ds es : List Diagnostic}
    (first : Remarks act ds) (second : ∀ a, Remarks (f a) es) : Remarks (act >>= f) (ds ++ es) := by
  intro c
  obtain ⟨log, one⟩ := first c
  obtain ⟨log', two⟩ := second (act.run c).1 (act.run c).2
  refine ⟨log', ?_⟩
  rw [run_bind, two, one]
  simp

theorem remarks_report (level : LogLevel) (d : Diagnostic) : Remarks (report level d) [d] :=
  (remarks_note level .catalog d.display).bind fun _ => remarks_record d

theorem remarks_reportAll (reports : List Report) :
    Remarks (reportAll reports) (reports.filterMap Report.diagnostic?) := by
  induction reports with
  | nil => exact remarks_pure ()
  | cons first r ih =>
    cases first with
    | warning d => exact (remarks_report .warn d).bind fun _ => ih
    | detail message => exact (remarks_note .debug .declaration message).bind fun _ => ih

/-- A loader that looks nothing up: from every catalog it gives the entity `e`, if any, and records
the diagnostics `ds`. -/
def LoadsAlone (load : CatalogM Lookup) (e : Option Entity) (ds : List Diagnostic) : Prop :=
  ∀ c, ∃ r log, r.item? = e.map (Item.mk c.next) ∧
    load.run c = (r, { c with next := c.next + e.toList.length,
                              diagnostics := c.diagnostics ++ ds, log := log })

theorem LoadsAlone.after {act : CatalogM α} {load : CatalogM Lookup} {e : Option Entity}
    {ds es : List Diagnostic} (first : Remarks act ds) (second : LoadsAlone load e es) :
    LoadsAlone (act >>= fun _ => load) e (ds ++ es) := by
  intro c
  obtain ⟨log, one⟩ := first c
  obtain ⟨r, log', item, two⟩ := second (act.run c).2
  refine ⟨r, log', ?_, ?_⟩
  · rw [item, one]
  · rw [run_bind, two, one, List.append_assoc]

theorem LoadsAlone.noted {load : CatalogM Lookup} {e : Option Entity} {ds : List Diagnostic}
    (loads : LoadsAlone load e ds) (level : LogLevel) (origin : LogOrigin) (message : String) :
    LoadsAlone (note level origin message >>= fun _ => load) e ds :=
  .after (remarks_note level origin message) loads

theorem loadsAlone_failed : LoadsAlone (pure .failed) none [] :=
  fun c => ⟨.failed, c.log, rfl, by simp only [List.append_nil]; rfl⟩

theorem loadsAlone_number (e : Entity) :
    LoadsAlone (do return .found (← number e)) (some e) [] :=
  fun c => ⟨.found ⟨c.next, e⟩, c.log, rfl, by simp only [List.append_nil]; rfl⟩

/-- A unit is read without looking anything up. -/
theorem loadsAlone_unitEntity (source : SourceText) (name scope : String) :
    let parsed := parseUnit source.location source.contents name scope
    LoadsAlone (unitEntity source name scope) parsed.result.toOption parsed.diagnostics := by
  intro parsed
  have reports := remarks_reportAll parsed.reports
  rw [Parsed.diagnostics]
  rcases read : parsed.result with f | e
  · simp only [unitEntity, parsed, read]
    exact .after reports (.after (remarks_report _ _) loadsAlone_failed)
  · simp only [unitEntity, parsed, read]
    exact .after reports (loadsAlone_number e)

end Catalog

/-- What a file in `scope` can declare: no module, what stands in `scope`, and of classes those that
name their superclasses by identifiers. -/
def Entity.DeclaredIn (scope : String) : Entity → Prop
  | .module _ => False
  | .cls c => c.scope = scope ∧ ∀ name ∈ c.superclasses, isDottedIdentifier name = true
  | e => e.scope = scope

theorem Entity.DeclaredIn.scope_eq {scope : String} {e : Entity} (declared : e.DeclaredIn scope) :
    e.scope = scope := by
  cases e with
  | module m => exact declared.elim
  | cls c => exact declared.1
  | _ => exact declared

/-- What a unit declares: a script, or a function or a class that is well formed. -/
theorem parseUnit_cases {location : Location} {text name scope : String} {e : Entity}
    (ok : (parseUnit location text name scope).result = .ok e) :
    e = .script (scriptOf text name scope) ∨ (∃ f, e = .function f ∧ f.WellFormed scope) ∨
      ∃ c, e = .cls c ∧ c.WellFormed name scope := by
  have spelled : SpelledOut (tokenize (normalize (removeHeader text))) :=
    fun t member => admits_of_mem_tokenize member
  unfold parseUnit at ok
  simp only at ok
  split at ok
  · cases ok
    exact .inl rfl
  · rcases read : (readerOf text).function scope (some name) with f | ⟨f, r⟩
    · simp [read, Parsed.ofReader] at ok
    · rw [read] at ok
      cases ok
      exact .inr (.inl ⟨f, rfl, Reader.wellFormed_function spelled (tokens_readerOf text) read⟩)
  · rcases read : (readerOf text).classDeclaration (placeOf location text) scope name with f | ⟨c, r⟩
    · simp [read, Parsed.ofReader] at ok
    · rw [read] at ok
      cases ok
      exact .inr (.inr ⟨c, rfl, Reader.wellFormed_classDeclaration spelled (tokens_readerOf text) read⟩)

/-- What reading a file in `scope` can come to: an application, or what a source text declares. -/
inductive Entity.ReadIn (scope : String) : Entity → Prop
  | application {app : ApplicationDoc} (inside : app.scope = scope) : ReadIn scope (.application app)
  | unit {location : Location} {text name : String} {e : Entity}
      (ok : (parseUnit location text name scope).result = .ok e) : ReadIn scope e

theorem Entity.ReadIn.declaredIn {scope : String} {e : Entity} (read : e.ReadIn scope) :
    e.DeclaredIn scope := by
  cases read with
  | application inside => exact inside
  | unit ok =>
    rcases parseUnit_cases ok with rfl | ⟨f, rfl, formed⟩ | ⟨c, rfl, formed⟩
    · rfl
    · exact formed.scope
    · exact ⟨formed.scope, formed.superclasses⟩

theorem scope_readApplication {bytes : Bytes} {name scope : String} {app : ApplicationDoc}
    {remark : Option String} (ok : readApplication bytes name scope = .ok (app, remark)) :
    app.scope = scope := by
  unfold readApplication at ok
  rcases read : AppMetadata.ofArchive bytes with e | metadata
  · rw [read] at ok
    cases ok
  · rw [read] at ok
    cases ok
    rfl

namespace SourceTree

open Catalog

/-- Loads the file at `path`, an application or a source file. -/
def loadFile (tree : SourceTree) (path scope : String) : CatalogM Lookup :=
  let name := (PathText.stem? path).getD ""
  if PathText.extension? path = some "mlapp" then tree.loadApplication path name scope
  else tree.loadSource path name scope

theorem file_eq (tree : SourceTree) (path scope : String) :
    tree.file path scope = do
      let result ← onceFile path (tree.loadFile path scope)
      return result.item? :=
  rfl

/-- A file that can be read and is no application is the unit that its bytes spell. -/
theorem loadsAlone_loadFile_unit {tree : SourceTree} {path scope : String} {bytes : Bytes}
    (plain : PathText.extension? path ≠ some "mlapp") (readable : tree.disk.read path = .ok bytes) :
    let source := (SourceText.ofBytes bytes (some path) tree.settings.encoding).1
    let parsed := parseUnit source.location source.contents ((PathText.stem? path).getD "") scope
    LoadsAlone (tree.loadFile path scope) parsed.result.toOption parsed.diagnostics := by
  have loads := loadsAlone_unitEntity (SourceText.ofBytes bytes (some path) tree.settings.encoding).1
    ((PathText.stem? path).getD "") scope
  simp only [loadFile, plain, if_false, loadSource, readable]
  split
  · exact loads.noted _ _ _
  · exact loads

/-- What loading a file comes to: an error that names it, an application, or what its text declares. -/
theorem loadFile_cases (tree : SourceTree) (path scope : String) :
    (∃ e : LoadError, LoadsAlone (tree.loadFile path scope) none [⟨.error, .ofFile path, e.message⟩]) ∨
    (∃ app : ApplicationDoc, app.scope = scope ∧
      LoadsAlone (tree.loadFile path scope) (some (.application app)) []) ∨
    PathText.extension? path ≠ some "mlapp" ∧ ∃ bytes, tree.disk.read path = .ok bytes := by
  have fails (e : LoadError) : LoadsAlone (do fail path e; return .failed) none
      [⟨.error, .ofFile path, e.message⟩] :=
    .after (remarks_report _ _) loadsAlone_failed
  by_cases application : PathText.extension? path = some "mlapp"
  · simp only [loadFile, application, if_true, loadApplication]
    split
    · next e _ => exact .inl ⟨e, fails e⟩
    · next app remark opened =>
      have inside : app.scope = scope := by
        rcases read : tree.disk.read path with f | bytes
        · rw [read] at opened
          cases opened
        · rw [read] at opened
          exact scope_readApplication opened
      have loads := loadsAlone_number (.application app)
      cases remark with
      | some message => exact .inr (.inl ⟨app, inside, loads.noted _ _ _⟩)
      | none => exact .inr (.inl ⟨app, inside, loads⟩)
  · rcases readable : tree.disk.read path with f | bytes
    · simp only [loadFile, application, if_false, loadSource, readable]
      exact .inl ⟨_, fails (.read f)⟩
    · exact .inr (.inr ⟨application, bytes, rfl⟩)

/-- A file is loaded without looking anything else up. -/
theorem exists_loadsAlone_loadFile (tree : SourceTree) (path scope : String) :
    ∃ e ds, LoadsAlone (tree.loadFile path scope) e ds ∧ ∀ x ∈ e, x.ReadIn scope := by
  rcases tree.loadFile_cases path scope with
    ⟨e, loads⟩ | ⟨app, inside, loads⟩ | ⟨plain, bytes, readable⟩
  · exact ⟨_, _, loads, by simp⟩
  · refine ⟨_, _, loads, ?_⟩
    rintro _ ⟨⟩
    exact .application inside
  · refine ⟨_, _, loadsAlone_loadFile_unit plain readable, fun x member => ?_⟩
    exact .unit (Parsed.ok_of_toOption member)

/-- The diagnostics of loading a file. -/
def fileDiagnostics (tree : SourceTree) (path scope : String) : List Diagnostic :=
  ((tree.loadFile path scope).run {}).2.diagnostics

/-- The entity that a file declares. -/
def fileEntity (tree : SourceTree) (path scope : String) : Option Entity :=
  ((tree.loadFile path scope).run {}).1.item?.map Item.entity

/-- Loading a file by itself tells what loading it at any time does. -/
theorem file_of_loadsAlone {tree : SourceTree} {path scope : String} {e : Option Entity}
    {ds : List Diagnostic} (loads : LoadsAlone (tree.loadFile path scope) e ds) :
    tree.fileEntity path scope = e ∧ tree.fileDiagnostics path scope = ds := by
  obtain ⟨r, log, item, run⟩ := loads {}
  constructor
  · cases e <;> simp [fileEntity, run, item]
  · simp [fileDiagnostics, run]

theorem loadsAlone_loadFile (tree : SourceTree) (path scope : String) :
    LoadsAlone (tree.loadFile path scope) (tree.fileEntity path scope)
      (tree.fileDiagnostics path scope) := by
  obtain ⟨e, ds, loads, -⟩ := tree.exists_loadsAlone_loadFile path scope
  obtain ⟨entity, diagnostics⟩ := file_of_loadsAlone loads
  rwa [entity, diagnostics]

theorem readIn_fileEntity {tree : SourceTree} {path scope : String} {x : Entity}
    (declared : tree.fileEntity path scope = some x) : x.ReadIn scope := by
  obtain ⟨e, ds, loads, inside⟩ := tree.exists_loadsAlone_loadFile path scope
  rw [(file_of_loadsAlone loads).1] at declared
  exact inside x declared

theorem declaredIn_fileEntity {tree : SourceTree} {path scope : String} {x : Entity}
    (declared : tree.fileEntity path scope = some x) : x.DeclaredIn scope :=
  (readIn_fileEntity declared).declaredIn

/-- The methods of a class that a file declares have names without points. -/
theorem plain_of_fileEntity {tree : SourceTree} {path scope : String} {c : ClassDoc}
    (declared : tree.fileEntity path scope = some (.cls c)) :
    ∀ entry ∈ c.methods.entries, '.' ∉ entry.1.toList := by
  rcases readIn_fileEntity declared with - | ⟨ok⟩
  rcases parseUnit_cases ok with other | ⟨f, other, -⟩ | ⟨_, ⟨⟩, formed⟩
  · cases other
  · cases other
  · exact fun entry member => (formed.methods entry member).plain

-- A proof that looks into these would run the whole reader.
attribute [irreducible] fileEntity fileDiagnostics

end SourceTree

end MatlabOutline
