import MatlabOutline.Proofs.Catalog.UnitFiles

/-!
The errors of one file. What lookups record of a file is recorded when it is read, and never again: so
the errors that name it are none before, and then those of reading it once. Once the members of its
module are listed it has been read.
-/

namespace MatlabOutline

open Catalog Law

/-- The diagnostic is an error that names the file at `path`, in whatever spelling. -/
def Disk.blames (disk : Disk) (path : String) (d : Diagnostic) : Bool :=
  d.severity == .error && d.location.file.any fun file => disk.placeOf file == disk.placeOf path

theorem Disk.blames_of_warning {disk : Disk} {path : String} {d : Diagnostic}
    (warning : d.severity = .warning) : disk.blames path d = false := by
  simp [blames, warning]

theorem Disk.blames_of_away {disk : Disk} {path other : String} {d : Diagnostic}
    (names : d.location.file = some other) (away : disk.placeOf other ≠ disk.placeOf path) :
    disk.blames path d = false := by
  simp [blames, names, away]

theorem diagnostic?_report {place : Nat → Location} {n : Note} {d : Diagnostic}
    (told : (n.report place).diagnostic? = some d) :
    d.severity = .warning ∧ ∃ line, d.location = place line := by
  cases n with
  | warning line cause =>
    cases told
    exact ⟨rfl, line, rfl⟩
  | skipped line token => cases told

/-- The reports of a unit are warnings about lines of its file, and so is the error about one. -/
theorem located_parseUnit (location : Location) (text name scope : String) :
    (∀ r ∈ (parseUnit location text name scope).reports, ∀ d ∈ r.diagnostic?,
      d.severity = .warning ∧ d.location.file = location.file) ∧
    ∀ e, (parseUnit location text name scope).result = .error e → e.location.file = location.file := by
  have ofReader {α : Type} (entity : α → Entity) (outcome : Except Failure (α × Reader)) :
      (∀ r ∈ (Parsed.ofReader (placeOf location text) entity outcome).reports, ∀ d ∈ r.diagnostic?,
        d.severity = .warning ∧ d.location.file = location.file) ∧
      ∀ e, (Parsed.ofReader (placeOf location text) entity outcome).result = .error e →
        e.location.file = location.file := by
    have all (notes : List Note) : ∀ r ∈ notes.reverse.map (Note.report (placeOf location text)),
        ∀ d ∈ r.diagnostic?, d.severity = .warning ∧ d.location.file = location.file := by
      intro r inside d told
      obtain ⟨n, -, rfl⟩ := List.mem_map.mp inside
      obtain ⟨warning, line, here⟩ := diagnostic?_report told
      exact ⟨warning, by rw [here]; rfl⟩
    rcases outcome with f | ⟨a, r⟩
    · refine ⟨all f.notes, ?_⟩
      rintro _ ⟨⟩
      rfl
    · exact ⟨all r.notes, fun e failed => by simp [Parsed.ofReader] at failed⟩
  rw [parseUnit]
  split
  · exact ⟨by simp, by simp⟩
  · exact ofReader _ _
  · exact ofReader _ _

theorem file_of_mem_diagnostics {location : Location} {text name scope : String} {d : Diagnostic}
    (inside : d ∈ (parseUnit location text name scope).diagnostics) : d.location.file = location.file := by
  obtain ⟨reports, error⟩ := located_parseUnit location text name scope
  rcases List.mem_append.mp inside with early | last
  · obtain ⟨r, member, told⟩ := List.mem_filterMap.mp early
    exact (reports r member d told).2
  · split at last
    · cases last
    · next e failed =>
      cases List.mem_singleton.mp last
      exact error e failed

/-- A unit with a fault has one error, and that names its file. -/
theorem filter_diagnostics {disk : Disk} {location : Location} {path text name scope : String}
    {e : ParseError} (file : location.file = some path)
    (failed : (parseUnit location text name scope).result = .error e) :
    (parseUnit location text name scope).diagnostics.filter (disk.blames path) =
      [⟨.error, e.location, e.fault.message⟩] := by
  obtain ⟨reports, error⟩ := located_parseUnit location text name scope
  have warnings : ((parseUnit location text name scope).reports.filterMap Report.diagnostic?).filter
      (disk.blames path) = [] := by
    refine List.filter_eq_nil_iff.mpr fun d inside => ?_
    obtain ⟨r, member, told⟩ := List.mem_filterMap.mp inside
    simp [Disk.blames_of_warning (reports r member d told).1]
  have blamed : disk.blames path ⟨.error, e.location, e.fault.message⟩ = true := by
    simp [Disk.blames, (error e failed).trans file]
  rw [Parsed.diagnostics, List.filter_append, warnings, failed, List.nil_append,
    List.filter_cons_of_pos blamed, List.filter_nil]

namespace SourceTree

/-- Whatever is recorded when a file is loaded names that file. -/
theorem file_of_mem_fileDiagnostics {tree : SourceTree} {path scope : String} {d : Diagnostic}
    (inside : d ∈ tree.fileDiagnostics path scope) : d.location.file = some path := by
  rcases tree.loadFile_cases path scope with ⟨e, loads⟩ | ⟨app, -, loads⟩ | ⟨plain, bytes, readable⟩
  · rw [(file_of_loadsAlone loads).2] at inside
    cases List.mem_singleton.mp inside
    rfl
  · rw [(file_of_loadsAlone loads).2] at inside
    cases inside
  · rw [(file_of_loadsAlone (loadsAlone_loadFile_unit plain readable)).2] at inside
    exact (file_of_mem_diagnostics inside).trans (by simp [SourceText.ofBytes, SourceText.location])

/-- What a catalog holds of the file of a unit: its errors if it was read, and else none. If the members
of its module are listed, or if `read` says so, it was read. -/
structure Tally (tree : SourceTree) (dotted name : String) (read : Prop) (c : Catalog) : Prop where
  errors : c.diagnostics.filter (tree.disk.blames (tree.unitPath dotted name)) =
    if c.files.contains (PathText.normal (tree.unitPath dotted name)) then
      (tree.fileDiagnostics (tree.unitPath dotted name) dotted).filter
        (tree.disk.blames (tree.unitPath dotted name))
    else []
  listed : ∀ x t, c.Holds (.module dotted (.found x)) → c.Holds (.members x.serial t) →
    c.files.contains (PathText.normal (tree.unitPath dotted name)) = true
  known : read → c.files.contains (PathText.normal (tree.unitPath dotted name)) = true

/-- From every faithful catalog of which `before` holds, `act` comes to one of which `after` holds. -/
def Leads {α : Type} (tree : SourceTree) (before after : Catalog → Prop) (ids : List Entity)
    (act : CatalogM α) : Prop :=
  ∀ more c, ids <+: more → tree.faithful.Kept more c → before c → after (act.run c).2

section Leads

variable {α β : Type} {tree : SourceTree} {ids : List Entity} {before between after : Catalog → Prop}
  {act : CatalogM α} {f : α → CatalogM β} {post : List Entity → α → Prop}

theorem leads_pure (a : α) : tree.Leads before before ids (pure a) :=
  fun _ _ _ _ holds => holds

theorem leads_get {f : Catalog → CatalogM β} (next : ∀ c, tree.Leads before after ids (f c)) :
    tree.Leads before after ids (get >>= f) :=
  fun more c => next c more c

theorem Leads.bind (first : tree.Leads before between ids act)
    (yields : tree.faithful.Yields ids act post)
    (second : ∀ more a, ids <+: more → post more a → tree.Leads between after more (f a)) :
    tree.Leads before after ids (act >>= f) := by
  intro more c grown kept holds
  obtain ⟨all, grown', kept', value⟩ := yields more c grown kept
  exact second all _ (grown.trans grown') value all _ List.prefix_rfl kept' (first more c grown kept holds)

theorem Leads.map (first : tree.Leads before after ids act) (g : α → β) :
    tree.Leads before after ids (do return g (← act)) :=
  first

theorem Leads.mono (leads : tree.Leads before after ids act) {ids' : List Entity} (grown : ids <+: ids') :
    tree.Leads before after ids' act :=
  fun more c later => leads more c (grown.trans later)

theorem Leads.weaken {before' after' : Catalog → Prop} (leads : tree.Leads before after ids act)
    (strong : ∀ c, before' c → before c) (weak : ∀ c, after c → after' c) :
    tree.Leads before' after' ids act :=
  fun more c grown kept holds => weak _ (leads more c grown kept (strong c holds))

end Leads

/-- What `act` does keeps the tally. -/
abbrev Tallies {α : Type} (tree : SourceTree) (dotted name : String) (read : Prop) (ids : List Entity)
    (act : CatalogM α) : Prop :=
  tree.Leads (tree.Tally dotted name read) (tree.Tally dotted name read) ids act

section Tally

variable {α : Type} {tree : SourceTree} {dotted name : String} {read : Prop} {ids : List Entity}
  {c c₁ : Catalog}

theorem Tally.weaken {less : Prop} (tally : tree.Tally dotted name read c) (fewer : less → read) :
    tree.Tally dotted name less c :=
  ⟨tally.errors, tally.listed, fun known => tally.known (fewer known)⟩

/-- Whatever else was loaded does not count. -/
theorem Tally.congr (tally : tree.Tally dotted name read c)
    (diagnostics : c₁.diagnostics.filter (tree.disk.blames (tree.unitPath dotted name)) =
      c.diagnostics.filter (tree.disk.blames (tree.unitPath dotted name)))
    (files : c₁.files = c.files) (modules : c₁.modules = c.modules) (members : c₁.members = c.members) :
    tree.Tally dotted name read c₁ where
  errors := by
    rw [diagnostics, files]
    exact tally.errors
  listed x t there held := by
    rw [files]
    exact tally.listed x t (by rwa [Holds, modules] at there) (by rwa [Holds, members] at held)
  known := by
    rw [files]
    exact tally.known

theorem filter_append_of_away {ds es : List Diagnostic} {p : Diagnostic → Bool}
    (away : ∀ d ∈ es, p d = false) : (ds ++ es).filter p = ds.filter p := by
  have none : es.filter p = [] := by simpa using away
  rw [List.filter_append, none, List.append_nil]

theorem tallies_of_remarks {act : CatalogM α} {ds : List Diagnostic} (remarks : Remarks act ds)
    (away : ∀ d ∈ ds, tree.disk.blames (tree.unitPath dotted name) d = false) :
    tree.Tallies dotted name read ids act := by
  intro more c _ _ tally
  obtain ⟨log, run⟩ := remarks c
  rw [run]
  exact tally.congr (filter_append_of_away away) rfl rfl rfl

theorem tallies_note (level : LogLevel) (origin : LogOrigin) (message : String) :
    tree.Tallies dotted name read ids (note level origin message) :=
  tallies_of_remarks (remarks_note _ _ _) (by simp)

theorem leads_note {level : LogLevel} {origin : LogOrigin} {message : String} {act : CatalogM α}
    {after : Catalog → Prop} (next : tree.Leads (tree.Tally dotted name read) after ids act) :
    tree.Leads (tree.Tally dotted name read) after ids (note level origin message >>= fun _ => act) :=
  (tallies_note _ _ _).bind (yields_of_remarks (remarks_note _ _ _)) fun _ _ grown _ => next.mono grown

theorem leads_once {key : Key} {known : Catalog → Option α} {keep : α → Catalog → Catalog}
    {load : CatalogM α} {before after : Catalog → Prop}
    (held : ∀ c a, known c = some a → before c → after c)
    (fresh : ∀ more c, ids <+: more → tree.faithful.Kept more c → before c → known c = none →
      let loaded := load.run { c with begun := key :: c.begun }
      after (keep loaded.1 loaded.2)) :
    tree.Leads before after ids (once key known keep load) := by
  intro more c grown kept holds
  rcases found : known c with _ | a
  · rw [run_once_of_unknown key known keep load found]
    exact fresh more c grown kept holds found
  · rw [once_of_known key known keep load c a found]
    exact held c a found holds

/-- A loader that makes no list and reads other files is of no account for the file. -/
theorem Tally.keep_file (tally : tree.Tally dotted name read c) {key : String}
    (away : key ≠ PathText.normal (tree.unitPath dotted name)) (r : Lookup) :
    tree.Tally dotted name read { c with files := c.files.insert key r } where
  errors := by
    simp only [Table.contains, Table.get?_insert, if_neg away]
    exact tally.errors
  listed x t there held := by
    simp only [Table.contains, Table.get?_insert, if_neg away]
    exact tally.listed x t there held
  known holds := by
    simp only [Table.contains, Table.get?_insert, if_neg away]
    exact tally.known holds

/-- A module that is kept while it has no members is of no account either. -/
theorem Tally.keep_module (tally : tree.Tally dotted name read c) (scope : String) {r : Lookup}
    (unlisted : ∀ x, r = .found x → ∀ t, ¬c.Holds (.members x.serial t)) :
    tree.Tally dotted name read { c with modules := c.modules.insert scope r } where
  errors := tally.errors
  listed x t there held := by
    rcases ((slot_module scope).holds_keep r c _).mp there with same | ⟨-, before⟩
    · cases same
      exact absurd held (unlisted x rfl t)
    · exact tally.listed x t before held
  known := tally.known

/-- An item that has just been numbered is no module that was listed. -/
theorem unlisted_number {act : CatalogM α} {post : List Entity → α → Prop}
    (yields : tree.faithful.Yields ids act post) (tallies : tree.Tallies dotted name read ids act)
    (made : α → Entity) (more : List Entity) (c : Catalog) (grown : ids <+: more)
    (kept : tree.faithful.Kept more c) (tally : tree.Tally dotted name read c) :
    let loaded := (do return Lookup.found (← number (made (← act))) : CatalogM Lookup).run c
    tree.Tally dotted name read loaded.2 ∧
      ∀ x, loaded.1 = .found x → ∀ t, ¬loaded.2.Holds (.members x.serial t) := by
  obtain ⟨all, -, kept', -⟩ := yields more c grown kept
  refine ⟨(tallies more c grown kept tally).congr rfl rfl rfl rfl, ?_⟩
  rintro x ⟨⟩ t held
  obtain ⟨m, here, -⟩ := kept'.results (.members _ t) held
  have below := (List.getElem?_eq_some_iff.mp here).1
  rw [kept'.numbered] at below
  exact lt_irrefl _ below

theorem tallies_numberCopy (made : ClassDoc) (origin : Item) :
    tree.Tallies dotted name read ids (numberCopy made origin) := by
  intro more c _ _ tally
  rw [run_numberCopy]
  exact tally.congr rfl rfl rfl rfl

section Unit

variable (unit : IsUnitName name) (flat : HasNoSlash dotted) (valid : isModuleName dotted = true)

include unit flat valid

/-- No other source stands at the place of the file or is kept under its path. -/
theorem apart_of_ne {scope : String} {below : List String} (source : IsSource scope below)
    (other : tree.sourcePath scope below ≠ tree.unitPath dotted name) :
    PathText.normal (tree.sourcePath scope below) ≠ PathText.normal (tree.unitPath dotted name) ∧
      tree.disk.placeOf (tree.sourcePath scope below) ≠ tree.disk.placeOf (tree.unitPath dotted name) := by
  have own := unit.isSource flat valid
  refine ⟨fun same => other ?_, fun same => other ?_⟩
  · obtain ⟨rfl, rfl⟩ := source.eq_of_normal own same
    rfl
  · obtain ⟨rfl, rfl⟩ := source.placeOf_injective own same
    rfl

theorem leads_file {scope path : String} (isFile : tree.IsFile scope path) :
    tree.Leads (tree.Tally dotted name read)
      (tree.Tally dotted name (read ∨ path = tree.unitPath dotted name)) ids (tree.file path scope) := by
  obtain ⟨below, source, rfl, -⟩ := isFile
  rw [file_eq]
  refine .map (leads_once (fun c r found tally => ?_) fun more c _ _ tally unknown => ?_) _
  · refine ⟨tally.errors, tally.listed, ?_⟩
    rintro (before | same)
    · exact tally.known before
    · rw [Table.contains, ← same, found]
      rfl
  · obtain ⟨r, log, -, run⟩ := tree.loadsAlone_loadFile (tree.sourcePath scope below) scope
      { c with begun := .file (PathText.normal (tree.sourcePath scope below)) :: c.begun }
    rw [run]
    by_cases own : tree.sourcePath scope below = tree.unitPath dotted name
    · obtain ⟨rfl, -⟩ := source.eq_of_normal (unit.isSource flat valid) (congrArg PathText.normal own)
      rw [own] at unknown ⊢
      have absent : c.files.contains (PathText.normal (tree.unitPath scope name)) = false := by
        rw [Table.contains, unknown]
        rfl
      have before := tally.errors
      rw [absent] at before
      refine ⟨?_, fun _ _ _ _ => ?_, fun _ => ?_⟩
      · simp [before, Table.contains, Table.get?_insert]
      · simp [Table.contains, Table.get?_insert]
      · simp [Table.contains, Table.get?_insert]
    · obtain ⟨key, place⟩ := apart_of_ne unit flat valid source own
      have rest : tree.Tally dotted name (read ∨ tree.sourcePath scope below = tree.unitPath dotted name) c :=
        tally.weaken fun known => known.resolve_right own
      refine Tally.keep_file ?_ key r
      refine rest.congr (filter_append_of_away fun d inside => ?_) rfl rfl rfl
      exact Disk.blames_of_away (file_of_mem_fileDiagnostics inside) place

theorem tallies_file {scope path : String} (isFile : tree.IsFile scope path) :
    tree.Tallies dotted name read ids (tree.file path scope) :=
  (leads_file unit flat valid isFile).weaken (fun _ => id) fun _ tally => tally.weaken .inl

theorem tallies_folderDoc {scope : String} (flat' : HasNoSlash scope)
    (valid' : isModuleName scope = true) :
    tree.Tallies dotted name read ids (tree.folderDoc (tree.modulePath scope) scope) := by
  have contents : IsEntryName contentsFile := by decide
  have plain : ¬IsMarked contentsFile := by simp [IsMarked, contentsFile]
  unfold folderDoc
  dsimp only
  split
  · exact (tallies_file unit flat valid (isFile_member flat' valid' contents plain)).map _
  · exact leads_pure _

theorem tallies_module {scope : String} (flat' : HasNoSlash scope) :
    tree.Tallies dotted name read ids (tree.module scope) := by
  refine .map (leads_once (fun _ _ _ => id) fun more c _ kept tally _ => ?_) _
  have begun : tree.Tally dotted name read { c with begun := .module scope :: c.begun } :=
    tally.congr rfl rfl rfl rfl
  unfold loadModule
  dsimp only
  split
  · next there =>
    have valid' := ((Bool.and_eq_true _ _).mp there).1
    let reading : CatalogM (Option String) := do
      note .debug .catalog ("loading module `" ++ scope ++ "` from " ++ tree.modulePath scope)
      tree.folderDoc (tree.modulePath scope) scope
    have yields : tree.faithful.Yields more reading fun _ doc =>
        doc = tree.folderText (tree.modulePath scope) scope :=
      (yields_of_remarks (remarks_note _ _ _)).bind fun _ _ _ _ => faithful_folderDoc flat' valid'
    have tallies : tree.Tallies dotted name read more reading :=
      leads_note (tallies_folderDoc unit flat valid flat' valid')
    obtain ⟨kept', unlisted⟩ := unlisted_number yields tallies
      (fun doc => .module { name := scope, path := tree.modulePath scope, doc }) more _ List.prefix_rfl
      (kept.remark (.module scope :: c.begun) c.diagnostics c.log) begun
    simp only [reading, bind_assoc] at kept' unlisted
    exact kept'.keep_module scope unlisted
  · exact begun.keep_module scope nofun

theorem tallies_mergeFiles {scope : String} {paths : List String}
    (files : ∀ path ∈ paths, tree.IsFile scope path) (d : ClassDoc) :
    tree.Tallies dotted name read ids (tree.mergeFiles scope d paths) := by
  induction paths generalizing ids d with
  | nil => exact leads_pure d
  | cons path r ih =>
    have first := files path List.mem_cons_self
    have rest (ids : List Entity) (d : ClassDoc) :=
      @ih ids (fun p inside => files p (List.mem_cons_of_mem path inside)) d
    refine (tallies_file unit flat valid first).bind (faithful_file first) fun more found _ _ => ?_
    rcases found with _ | item
    · exact rest more d
    · dsimp only
      split
      · exact rest more _
      · exact leads_note (rest more d)

theorem tallies_classFolder (proper : tree.disk.root.Proper) {scope folder : String} {cls : List Char}
    (flat' : HasNoSlash scope) (valid' : isModuleName scope = true) (entry : IsEntryName folder)
    (chars : folder.toList = '@' :: cls) :
    tree.Tallies dotted name read ids
      (tree.classFolder (PathText.join (tree.modulePath scope) folder) (String.ofList cls) scope) := by
  have marked : IsMarked folder := by simp [IsMarked, chars]
  have source : IsSource scope [folder] := ⟨flat', valid', by simpa using entry, .inl ⟨folder, rfl⟩⟩
  have inside {file : String} (entry' : IsEntryName file) :
      tree.IsFile scope (PathText.join (PathText.join (tree.modulePath scope) folder) file) :=
    isFile_inClassFolder flat' valid' entry marked entry'
  have classFile : IsEntryName (String.ofList cls ++ ".m") :=
    isEntryName_classFile (entry.hasNoSlash_tail chars)
  have own : tree.sourcePath scope [folder] ≠ tree.unitPath dotted name := by
    intro same
    have names := (source.eq_of_normal (unit.isSource flat valid) (congrArg PathText.normal same)).2
    exact unit.not_isMarked ((List.cons.inj names).1 ▸ marked)
  obtain ⟨key, place⟩ := apart_of_ne unit flat valid source own
  have load (ids : List Entity) : tree.Tallies dotted name read ids (tree.loadClassFolder
      (PathText.join (tree.modulePath scope) folder) (String.ofList cls) scope) := by
    unfold loadClassFolder
    refine (tallies_file unit flat valid (inside classFile)).bind (faithful_file (inside classFile))
      fun more found _ _ => ?_
    split
    · exact leads_pure _
    split
    · exact leads_pure _
    split
    · exact (tallies_of_remarks (remarks_report _ _) (by simpa using Disk.blames_of_away rfl place)).map _
    · next names listed =>
      have files : ∀ path ∈ (names.map (PathText.join (PathText.join (tree.modulePath scope) folder))).filter
          (tree.isMethodFile (PathText.join (PathText.join (tree.modulePath scope) folder)
            (String.ofList cls ++ ".m"))), tree.IsFile scope path := by
        intro path member
        obtain ⟨file, there, rfl⟩ := List.mem_map.mp (List.mem_of_mem_filter member)
        exact inside (Disk.isEntryName_of_list proper listed file there)
      refine (tallies_mergeFiles unit flat valid files _).bind (faithful_mergeFiles files _)
        fun more d _ _ => ?_
      exact (tallies_numberCopy d _).map _
  refine .map (leads_once (fun _ _ _ => id) fun more c grown kept tally _ => ?_) _
  refine Tally.keep_file ?_ key _
  exact load more more _ List.prefix_rfl (kept.remark _ _ _) (tally.congr rfl rfl rfl rfl)

theorem tallies_member (proper : tree.disk.root.Proper) {m : ModuleDoc}
    (fit : tree.faithful.entity (.module m)) {entry : String} (named : IsEntryName entry) :
    tree.Tallies dotted name read ids (tree.member m entry) := by
  obtain ⟨flat', found⟩ := fit
  obtain ⟨same, valid', -⟩ := moduleDoc?_eq_some found
  have path : m.path = tree.modulePath m.name := congrArg ModuleDoc.path same
  obtain ⟨run, -⟩ | ⟨cls, chars, run, -⟩ | ⟨run, -⟩ | ⟨word, run, -⟩ := tree.member_cases m entry
  · rw [run]
    exact leads_pure _
  · rw [run, path]
    exact (tallies_classFolder unit flat valid proper flat' valid' named chars).map _
  · rw [run]
    exact (tallies_module unit flat valid (flat'.joinName named.whole)).map _
  · rw [run, path]
    exact (tallies_file unit flat valid
      (isFile_member flat' valid' named (not_isMarked_of_stem named word))).map _

section Listing

variable (file : tree.disk.isFile (tree.unitPath dotted name) = true)

include file

/-- Looking at the entry of the file reads the file. -/
theorem leads_member (proper : tree.disk.root.Proper) {m : ModuleDoc}
    (fit : tree.faithful.entity (.module m)) {entry : String} (named : IsEntryName entry) :
    tree.Leads (tree.Tally dotted name read)
      (tree.Tally dotted name (read ∨ m.name = dotted ∧ entry = unitFile name)) ids
      (tree.member m entry) := by
  by_cases own : m.name = dotted ∧ entry = unitFile name
  · obtain ⟨rfl, rfl⟩ := own
    obtain ⟨flat', found⟩ := fit
    obtain ⟨path, -⟩ := exists_list_of_moduleDoc? found
    have here : PathText.join m.path (unitFile name) = tree.unitPath m.name name := by
      rw [path]
      rfl
    have folder := Disk.isFolder_of_isFile file
    rw [(member_unitFile unit (here ▸ folder)).1, here]
    have isFile := @isFile_member tree m.name (unitFile name) flat valid unit.isEntryName unit.not_isMarked
    exact (leads_file unit flat valid isFile).weaken (fun _ => id) fun _ tally =>
      tally.weaken fun known => known.imp_right fun _ => rfl
  · exact (tallies_member unit flat valid proper fit named).weaken (fun _ => id) fun _ tally =>
      tally.weaken fun known => known.resolve_right own

theorem leads_addMembers (proper : tree.disk.root.Proper) {m : ModuleDoc}
    (fit : tree.faithful.entity (.module m)) {names : List String}
    (entries : ∀ entry ∈ names, IsEntryName entry) (t : Table Item) :
    tree.Leads (tree.Tally dotted name read)
      (tree.Tally dotted name (read ∨ m.name = dotted ∧ unitFile name ∈ names)) ids
      (tree.addMembers m t names) := by
  induction names generalizing ids read t with
  | nil => exact (leads_pure t).weaken (fun _ => id) fun _ tally =>
      tally.weaken fun known => by simpa using known
  | cons entry r ih =>
    have named := entries entry List.mem_cons_self
    have rest (ids : List Entity) (t : Table Item) :
        tree.Leads (tree.Tally dotted name (read ∨ m.name = dotted ∧ entry = unitFile name))
          (tree.Tally dotted name (read ∨ m.name = dotted ∧ unitFile name ∈ entry :: r)) ids
          (tree.addMembers m t r) := by
      refine (ih (fun n inside => entries n (List.mem_cons_of_mem entry inside)) t).weaken
        (fun _ => id) fun _ tally => tally.weaken fun known => ?_
      rcases known with before | ⟨same, here⟩
      · exact .inl (.inl before)
      · rcases List.mem_cons.mp here with now | later
        · exact .inl (.inr ⟨same, now.symm⟩)
        · exact .inr ⟨same, later⟩
    refine (leads_member unit flat valid file proper fit named).bind (faithful_member proper fit named)
      fun more found _ _ => ?_
    split
    · split
      · exact leads_note (rest more t)
      · exact rest more _
    · exact rest more t

theorem leads_loadMembers (proper : tree.disk.root.Proper) {m : ModuleDoc}
    (fit : tree.faithful.entity (.module m)) :
    tree.Leads (tree.Tally dotted name read) (tree.Tally dotted name (read ∨ m.name = dotted)) ids
      (tree.loadMembers m) := by
  obtain ⟨path, -, names, listed⟩ := exists_list_of_moduleDoc? fit.2
  have entries := Disk.isEntryName_of_list proper listed
  simp only [loadMembers, listed]
  refine (leads_addMembers unit flat valid file proper fit entries {}).weaken (fun _ => id) fun _ tally =>
    tally.weaken fun known => known.imp_right fun here => ⟨here, ?_⟩
  refine Disk.mem_of_isFile listed unit.isEntryName ?_
  rw [path, here]
  exact file

theorem tallies_members (proper : tree.disk.root.Proper) {item : Item} {m : ModuleDoc}
    (entity : item.entity = .module m) (recorded : item.RecordedIn ids)
    (fit : tree.faithful.entity (.module m)) :
    tree.Tallies dotted name read ids (tree.members item) := by
  simp only [members, Item.module?, entity]
  refine .map (leads_once (fun _ _ _ => id) fun more c grown kept tally _ => ?_) _
  obtain ⟨all, grown', kept', -⟩ := faithful_loadMembers proper fit more _ List.prefix_rfl
    (kept.remark (.members item.serial :: c.begun) c.diagnostics c.log)
  have lists : tree.Leads (tree.Tally dotted name read) (tree.Tally dotted name (read ∨ m.name = dotted))
      more (tree.loadMembers m) := leads_loadMembers unit flat valid file proper fit
  have listing := lists more _ List.prefix_rfl
    (kept.remark (.members item.serial :: c.begun) c.diagnostics c.log) (tally.congr rfl rfl rfl rfl)
  generalize (tree.loadMembers m).run { c with begun := .members item.serial :: c.begun } = loaded at *
  refine ⟨listing.errors, fun x t there held => ?_, fun known => listing.known (.inl known)⟩
  by_cases same : x.serial = item.serial
  · have shown := kept'.results (.module dotted (.found x)) there
    obtain ⟨here, declared⟩ := shown.eq_some
    obtain ⟨m', found, means⟩ := Option.map_eq_some_iff.mp declared
    have now : all[item.serial]? = some item.entity := (recorded.mono (grown.trans grown'))
    rw [Item.RecordedIn, same, now, entity, ← means] at here
    cases here
    exact listing.known (.inr (congrArg ModuleDoc.name (moduleDoc?_eq_some found).1))
  · refine listing.listed x t there ?_
    simpa [Holds, lookup_cons, Ne.symm same] using held

theorem tallies_get? (proper : tree.disk.root.Proper) {item : Item} {m : ModuleDoc}
    (entity : item.entity = .module m) (recorded : item.RecordedIn ids)
    (fit : tree.faithful.entity (.module m)) (key : String) :
    tree.Tallies dotted name read ids (tree.get? item key) :=
  (tallies_members unit flat valid file proper entity recorded fit).map _

end Listing

end Unit

end Tally

end SourceTree

end MatlabOutline
