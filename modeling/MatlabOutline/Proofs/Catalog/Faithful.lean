import MatlabOutline.Proofs.Catalog.Law
import MatlabOutline.Proofs.Catalog.Sources

/-!
Faithful catalogs: every result is what the source tree means. A file is kept by its path alone, but
the path of a source tells the module that it was read for.
-/

namespace MatlabOutline

/-- The item of an entity that was numbered, if there is an entity. -/
def Shows (ids : List Entity) (e : Option Entity) (r : Option Item) : Prop :=
  (∀ x ∈ r, x.RecordedIn ids) ∧ r.map Item.entity = e

theorem Shows.mono {ids more : List Entity} {e : Option Entity} {r : Option Item}
    (shown : Shows ids e r) (grown : ids <+: more) : Shows more e r :=
  ⟨fun x inside => (shown.1 x inside).mono grown, shown.2⟩

theorem shows_none (ids : List Entity) : Shows ids none none :=
  ⟨by simp, rfl⟩

theorem shows_some {ids : List Entity} {x : Item} (recorded : x.RecordedIn ids) :
    Shows ids (some x.entity) (some x) :=
  ⟨by simpa using recorded, rfl⟩

theorem Shows.eq_none {ids : List Entity} {e : Option Entity} (shown : Shows ids e none) : e = none :=
  shown.2.symm

theorem Shows.eq_some {ids : List Entity} {e : Option Entity} {x : Item}
    (shown : Shows ids e (some x)) : x.RecordedIn ids ∧ e = some x.entity :=
  ⟨shown.1 x rfl, shown.2.symm⟩

theorem Shows.filter {ids : List Entity} {e : Option Entity} {r : Option Item} (shown : Shows ids e r)
    {p : Entity → Bool} {q : Item → Bool} (same : ∀ x, q x = p x.entity) :
    Shows ids (e.filter p) (r.filter q) := by
  rcases r with _ | x
  · rw [shown.eq_none]
    exact shows_none ids
  · obtain ⟨recorded, rfl⟩ := shown.eq_some
    rw [Option.filter_some, Option.filter_some, same]
    split
    · exact shows_some recorded
    · exact shows_none ids

/-- The items of a table that were numbered, for a table of entities. -/
def ShowsTable (ids : List Entity) (entities : Table Entity) (t : Table Item) : Prop :=
  (∀ e ∈ t.entries, e.2.RecordedIn ids) ∧ t.map Item.entity = entities

theorem ShowsTable.mono {ids more : List Entity} {entities : Table Entity} {t : Table Item}
    (shown : ShowsTable ids entities t) (grown : ids <+: more) : ShowsTable more entities t :=
  ⟨fun e inside => (shown.1 e inside).mono grown, shown.2⟩

theorem ShowsTable.get? {ids : List Entity} {entities : Table Entity} {t : Table Item}
    (shown : ShowsTable ids entities t) (key : String) :
    Shows ids (entities.get? key) (t.get? key) := by
  refine ⟨fun x found => shown.1 _ (Table.mem_entries_of_get? found), ?_⟩
  rw [← shown.2, Table.get?_map]

/-- The items of a list that were numbered, for a list of entities. -/
def ShowsAll (ids entities : List Entity) (l : List Item) : Prop :=
  (∀ x ∈ l, x.RecordedIn ids) ∧ l.map Item.entity = entities

theorem ShowsAll.mono {ids more entities : List Entity} {l : List Item}
    (shown : ShowsAll ids entities l) (grown : ids <+: more) : ShowsAll more entities l :=
  ⟨fun x inside => (shown.1 x inside).mono grown, shown.2⟩

namespace SourceTree

open Catalog Law

variable {tree : SourceTree} {ids : List Entity}

/-- The entity of a source: of a class folder if it is marked as one, and else of a file. -/
def sourceEntity (tree : SourceTree) (dotted : String) (below : List String) : Option Entity :=
  let path := tree.sourcePath dotted below
  match below with
  | [folder] =>
    match folder.toList with
    | '@' :: cls => tree.classFolderEntity path (String.ofList cls) dotted
    | _ => tree.fileEntity path dotted
  | _ => tree.fileEntity path dotted

/-- Everything in the catalog is what the source tree means by its key. -/
def faithful (tree : SourceTree) : Law where
  entity
    | .module m => HasNoSlash m.name ∧ tree.moduleDoc? m.name = some m
    | .cls c => HasNoSlash c.scope ∧ ∀ name ∈ c.superclasses, HasNoSlash name
    | _ => True
  holds ids
    | .module dotted r => Shows ids ((tree.moduleDoc? dotted).map .module) r.item?
    | .file key r => ∃ dotted below, IsSource dotted below ∧
        PathText.normal (tree.sourcePath dotted below) = key ∧
        Shows ids (tree.sourceEntity dotted below) r.item?
    | .name name r => Shows ids (tree.codeEntity name) r.item?
    | .members serial t =>
        ∃ m, ids[serial]? = some (.module m) ∧ ShowsTable ids (tree.memberEntities m) t
    | .bases serial l => ∃ c, ids[serial]? = some (.cls c) ∧ ShowsAll ids (tree.baseEntities c) l
  mono {ids more result} grown holds := by
    have same {serial : Nat} {e : Entity} (here : ids[serial]? = some e) : more[serial]? = some e :=
      Item.RecordedIn.mono (show Item.RecordedIn ids ⟨serial, e⟩ from here) grown
    cases result with
    | module _ _ => exact holds.mono grown
    | file _ _ =>
      obtain ⟨dotted, below, source, key, shown⟩ := holds
      exact ⟨dotted, below, source, key, shown.mono grown⟩
    | name _ _ => exact holds.mono grown
    | members serial t =>
      obtain ⟨m, here, shown⟩ := holds
      exact ⟨m, same here, shown.mono grown⟩
    | bases serial l =>
      obtain ⟨c, here, shown⟩ := holds
      exact ⟨c, same here, shown.mono grown⟩

theorem faithful_entity_of_declaredIn {scope : String} (flat : HasNoSlash scope) {e : Entity}
    (declared : e.DeclaredIn scope) : tree.faithful.entity e := by
  cases e with
  | module m => exact declared.elim
  | cls c =>
    obtain ⟨rfl, dotted⟩ := declared
    exact ⟨flat, fun name inside => hasNoSlash_of_isDottedIdentifier (dotted name inside)⟩
  | _ => trivial

/-- A file that lookups read for the module `scope`. -/
def IsFile (tree : SourceTree) (scope path : String) : Prop :=
  ∃ below, IsSource scope below ∧ path = tree.sourcePath scope below ∧
    tree.sourceEntity scope below = tree.fileEntity path scope

/-- What is kept under the path of a source is the entity of that source. -/
theorem shows_of_holds_file {dotted : String} {below : List String} (source : IsSource dotted below)
    {r : Lookup}
    (holds : tree.faithful.holds ids (.file (PathText.normal (tree.sourcePath dotted below)) r)) :
    Shows ids (tree.sourceEntity dotted below) r.item? := by
  obtain ⟨dotted', below', source', key, shown⟩ := holds
  obtain ⟨rfl, rfl⟩ := source'.eq_of_normal source key
  exact shown

theorem faithful_file {scope path : String} (file : tree.IsFile scope path) :
    tree.faithful.Yields ids (tree.file path scope) fun all r =>
      Shows all (tree.fileEntity path scope) r := by
  obtain ⟨below, source, rfl, same⟩ := file
  rw [file_eq]
  -- What is kept may come from another lookup, but one for the same module.
  refine (yields_once (slot_file _) ?_).map fun all r _ holds => same ▸ shows_of_holds_file source holds
  refine (yields_of_loadsAlone (tree.loadsAlone_loadFile _ scope) fun x declared => ?_).weaken
    fun all r _ holds => ⟨scope, below, source, rfl, same ▸ holds⟩
  exact faithful_entity_of_declaredIn source.flat (declaredIn_fileEntity declared)

theorem isFile_member {dotted name : String} (flat : HasNoSlash dotted)
    (valid : isModuleName dotted = true) (entry : IsEntryName name) (plain : ¬IsMarked name) :
    tree.IsFile dotted (PathText.join (tree.modulePath dotted) name) := by
  refine ⟨[name], ⟨flat, valid, by simpa using entry, .inl ⟨name, rfl⟩⟩, rfl, ?_⟩
  simp only [sourceEntity]
  split
  · next cls chars => exact absurd (by simp [IsMarked, chars]) plain
  · rfl

theorem isFile_inClassFolder {dotted folder name : String} (flat : HasNoSlash dotted)
    (valid : isModuleName dotted = true) (outer : IsEntryName folder) (marked : IsMarked folder)
    (entry : IsEntryName name) :
    tree.IsFile dotted (PathText.join (PathText.join (tree.modulePath dotted) folder) name) :=
  ⟨[folder, name], ⟨flat, valid, by simpa using ⟨outer, entry⟩, .inr ⟨folder, name, rfl, marked⟩⟩,
    rfl, rfl⟩

theorem faithful_folderDoc {dotted : String} (flat : HasNoSlash dotted)
    (valid : isModuleName dotted = true) :
    tree.faithful.Yields ids (tree.folderDoc (tree.modulePath dotted) dotted) fun _ doc =>
      doc = tree.folderText (tree.modulePath dotted) dotted := by
  have contents : IsEntryName contentsFile :=
    ⟨by decide, by decide, by decide, by decide⟩
  have plain : ¬IsMarked contentsFile := by simp [IsMarked, contentsFile]
  unfold folderDoc folderText
  dsimp only
  split
  · refine (faithful_file (isFile_member flat valid contents plain)).map fun all r _ shown => ?_
    rw [← shown.2]
    cases r <;> rfl
  · exact yields_pure fun _ _ => rfl

theorem faithful_module {dotted : String} (flat : HasNoSlash dotted) :
    tree.faithful.Yields ids (tree.module dotted) fun all r =>
      Shows all ((tree.moduleDoc? dotted).map .module) r := by
  refine (yields_once (slot_module _) ?_).map fun more r _ holds => holds
  unfold loadModule
  dsimp only
  split
  · next there =>
    have real : tree.moduleDoc? dotted = some
        { name := dotted, path := tree.modulePath dotted
          doc := tree.folderText (tree.modulePath dotted) dotted } := if_pos there
    rw [Bool.and_eq_true] at there
    refine (yields_of_remarks (remarks_note _ _ _)).bind fun more _ _ _ => ?_
    refine (faithful_folderDoc flat there.1).bind fun more doc _ text => ?_
    subst text
    have fit : tree.faithful.entity (.module
        { name := dotted, path := tree.modulePath dotted
          doc := tree.folderText (tree.modulePath dotted) dotted }) := ⟨flat, real⟩
    refine (yields_number fit).map fun all item _ holds => ?_
    show Shows all ((tree.moduleDoc? dotted).map .module) (some item)
    rw [real, Option.map_some, ← holds.2]
    exact shows_some holds.1
  · next gone =>
    have absent : tree.moduleDoc? dotted = none := if_neg gone
    refine yields_pure fun all _ => ?_
    show Shows all ((tree.moduleDoc? dotted).map .module) none
    rw [absent]
    exact shows_none all

theorem faithful_mergeFiles {scope : String} {paths : List String}
    (files : ∀ path ∈ paths, tree.IsFile scope path) (c : ClassDoc) :
    tree.faithful.Yields ids (tree.mergeFiles scope c paths) fun _ merged =>
      merged = tree.mergedClass scope c paths := by
  induction paths generalizing ids c with
  | nil => exact yields_pure fun _ _ => rfl
  | cons path r ih =>
    have rest (ids : List Entity) (c : ClassDoc) :=
      @ih ids (fun p inside => files p (List.mem_cons_of_mem path inside)) c
    refine (faithful_file (files path List.mem_cons_self)).bind fun more found _ shown => ?_
    rcases found with _ | item
    · simp only [mergedClass, shown.eq_none]
      exact rest more c
    · simp only [mergedClass, shown.eq_some.2, Item.function?]
      cases item.entity with
      | function f => exact rest more _
      | _ => exact (yields_of_remarks (remarks_note _ _ _)).bind fun all _ _ _ => rest all c

/-- A copy of a class with the same scope and superclasses has the same superclasses as its origin. -/
theorem faithful_numberCopy {made c : ClassDoc} {origin : Item} (fit : tree.faithful.entity (.cls c))
    (recorded : origin.RecordedIn ids) (entity : origin.entity = .cls c) (scope : made.scope = c.scope)
    (superclasses : made.superclasses = c.superclasses) :
    tree.faithful.Yields ids (numberCopy made origin) fun all item =>
      item.RecordedIn all ∧ item.entity = .cls made := by
  have fit' : tree.faithful.entity (.cls made) := by
    simpa only [faithful, scope, superclasses] using fit
  refine yields_numberCopy fit' fun more l grown holds => ?_
  obtain ⟨c', here, shown⟩ := holds
  have now := recorded.mono grown
  rw [Item.RecordedIn, here, entity] at now
  cases now
  have same : tree.baseEntities made = tree.baseEntities c := by
    rw [baseEntities, baseEntities, scope, superclasses]
  exact ⟨made, by simp, same ▸ shown.mono (List.prefix_append _ _)⟩

/-- Loading a class folder comes to the class that the folder means. -/
theorem faithful_loadClassFolder (proper : tree.disk.root.Proper) {dotted name : String} {cls : List Char}
    (flat : HasNoSlash dotted) (valid : isModuleName dotted = true) (entry : IsEntryName name)
    (chars : name.toList = '@' :: cls) :
    let path := PathText.join (tree.modulePath dotted) name
    tree.faithful.Yields ids (tree.loadClassFolder path (String.ofList cls) dotted) fun all r =>
      Shows all (tree.classFolderEntity path (String.ofList cls) dotted) r.item? := by
  intro path
  have marked : IsMarked name := by simp [IsMarked, chars]
  have inside {file : String} (entry' : IsEntryName file) :
      tree.IsFile dotted (PathText.join path file) :=
    isFile_inClassFolder flat valid entry marked entry'
  have classFile : IsEntryName (String.ofList cls ++ ".m") :=
    isEntryName_classFile (entry.hasNoSlash_tail chars)
  unfold loadClassFolder classFolderEntity
  dsimp only
  refine (faithful_file (inside classFile)).bind fun more found _ shown => ?_
  rcases found with _ | item
  · rw [shown.eq_none]
    exact yields_pure fun all _ => shows_none all
  obtain ⟨recorded, declared⟩ := shown.eq_some
  rw [declared]
  rcases kind : item.entity with m | c | f | u | a
  case cls =>
    rcases listed : tree.disk.list path with _ | names
    · simp only [Item.class?, kind]
      exact (yields_of_remarks (remarks_report _ _)).map fun all _ _ _ => shows_none all
    · simp only [Item.class?, kind]
      refine (faithful_mergeFiles (fun file member => ?_) c).bind fun more' merged grown same => ?_
      · obtain ⟨inner, member', rfl⟩ := List.mem_map.mp (List.mem_of_mem_filter member)
        exact inside (Disk.isEntryName_of_list proper listed inner member')
      · subst same
        have fit : tree.faithful.entity (.cls c) := faithful_entity_of_declaredIn flat
          (declaredIn_fileEntity (declared.trans (congrArg some kind)))
        refine (faithful_numberCopy fit (recorded.mono grown) kind (mergedClass_keeps dotted c _).1
          (mergedClass_keeps dotted c _).2).map fun all copy _ holds => ⟨fun x here => ?_, ?_⟩
        · cases here
          exact holds.1
        · exact congrArg some holds.2
  all_goals
    simp only [Item.class?, kind]
    refine yields_pure fun all grown => ⟨fun x here => ?_, ?_⟩
    · cases here
      exact recorded.mono grown
    · exact congrArg some kind

theorem faithful_classFolder (proper : tree.disk.root.Proper) {dotted name : String} {cls : List Char}
    (flat : HasNoSlash dotted) (valid : isModuleName dotted = true) (entry : IsEntryName name)
    (chars : name.toList = '@' :: cls) :
    let path := PathText.join (tree.modulePath dotted) name
    tree.faithful.Yields ids (tree.classFolder path (String.ofList cls) dotted) fun all r =>
      Shows all (tree.classFolderEntity path (String.ofList cls) dotted) r := by
  intro path
  have source : IsSource dotted [name] := ⟨flat, valid, by simpa using entry, .inl ⟨name, rfl⟩⟩
  have same : tree.sourceEntity dotted [name] =
      tree.classFolderEntity path (String.ofList cls) dotted := by
    simp only [sourceEntity, chars]
    rfl
  refine (yields_once (slot_file _) ?_).map fun all r _ holds => same ▸ shows_of_holds_file source holds
  exact (faithful_loadClassFolder proper flat valid entry chars).weaken fun all r _ shown =>
    ⟨dotted, [name], source, rfl, same ▸ shown⟩

theorem faithful_member (proper : tree.disk.root.Proper) {m : ModuleDoc}
    (fit : tree.faithful.entity (.module m)) {name : String} (entry : IsEntryName name) :
    tree.faithful.Yields ids (tree.member m name) fun all r =>
      (r = none ∧ tree.memberEntity m name = none) ∨ ∃ key e item, r = some (key, item) ∧
        tree.memberEntity m name = some (key, e) ∧ Shows all e item := by
  obtain ⟨flat, found⟩ := fit
  obtain ⟨same, valid, -⟩ := moduleDoc?_eq_some found
  have path : m.path = tree.modulePath m.name := congrArg ModuleDoc.path same
  have one {act : CatalogM (Option Item)} {e : Option Entity} {key : String}
      (means : tree.memberEntity m name = some (key, e))
      (yields : tree.faithful.Yields ids act fun all r => Shows all e r) :
      tree.faithful.Yields ids (do return some (key, ← act)) fun all r =>
        (r = none ∧ tree.memberEntity m name = none) ∨ ∃ key e item, r = some (key, item) ∧
          tree.memberEntity m name = some (key, e) ∧ Shows all e item :=
    yields.map fun all r _ shown => .inr ⟨key, e, r, rfl, means, shown⟩
  obtain ⟨run, means⟩ | ⟨cls, chars, run, means⟩ | ⟨run, means⟩ | ⟨word, run, means⟩ :=
    tree.member_cases m name
  · rw [run]
    exact yields_pure fun _ _ => .inl ⟨rfl, means⟩
  · rw [run]
    refine one means ?_
    rw [path]
    exact faithful_classFolder proper flat valid entry chars
  · rw [run]
    exact one means (faithful_module (flat.joinName entry.whole))
  · rw [run]
    refine one means ?_
    rw [path]
    exact faithful_file (isFile_member flat valid entry (not_isMarked_of_stem entry word))

theorem faithful_addMembers (proper : tree.disk.root.Proper) {m : ModuleDoc}
    (fit : tree.faithful.entity (.module m)) {names : List String}
    (entries : ∀ name ∈ names, IsEntryName name) {entities : Table Entity} {t : Table Item}
    (shown : ShowsTable ids entities t) :
    tree.faithful.Yields ids (tree.addMembers m t names) fun all t' =>
      ShowsTable all (tree.addEntities m entities names) t' := by
  induction names generalizing ids entities t with
  | nil => exact yields_pure fun all grown => shown.mono grown
  | cons name r ih =>
    have rest {ids : List Entity} {entities : Table Entity} {t : Table Item}
        (shown : ShowsTable ids entities t) :=
      ih (fun n inside => entries n (List.mem_cons_of_mem name inside)) shown
    refine (faithful_member proper fit (entries name List.mem_cons_self)).bind
      fun more found grown holds => ?_
    have now := shown.mono grown
    obtain ⟨rfl, means⟩ | ⟨key, e, item, rfl, means, one⟩ := holds
    · simp only [addEntities, means]
      exact rest now
    · rcases item with _ | item
      · simp only [addEntities, means, one.eq_none]
        exact rest now
      · obtain ⟨recorded, rfl⟩ := one.eq_some
        have same : entities.contains key = t.contains key := by
          rw [← now.2, Table.contains_map]
        simp only [addEntities, means, same]
        split
        · exact (yields_of_remarks (remarks_note _ _ _)).bind fun all _ grown _ =>
            rest (now.mono grown)
        · refine rest ⟨fun e inside => ?_, by rw [Table.map_insert, now.2]⟩
          rcases Table.mem_entries_insert inside with rfl | old
          · exact recorded
          · exact now.1 e old

theorem faithful_loadMembers (proper : tree.disk.root.Proper) {m : ModuleDoc}
    (fit : tree.faithful.entity (.module m)) :
    tree.faithful.Yields ids (tree.loadMembers m) fun all t =>
      ShowsTable all (tree.memberEntities m) t := by
  have empty (ids : List Entity) : ShowsTable ids {} {} :=
    ⟨fun e inside => absurd inside List.not_mem_nil, rfl⟩
  rcases listed : tree.disk.list m.path with _ | names
  · simp only [loadMembers, memberEntities, listed]
    exact (yields_of_remarks (remarks_report _ _)).map fun all _ _ _ => empty all
  · simp only [loadMembers, memberEntities, listed]
    exact faithful_addMembers proper fit (Disk.isEntryName_of_list proper listed) (empty ids)

/-- A module that was loaded is the one with its name, and it was fit to be numbered. -/
theorem module_cases {dotted : String} (flat : HasNoSlash dotted) {r : Option Item}
    (shown : Shows ids ((tree.moduleDoc? dotted).map .module) r) :
    (r = none ∧ tree.moduleDoc? dotted = none) ∨
      ∃ item m, r = some item ∧ tree.moduleDoc? dotted = some m ∧ item.entity = .module m ∧
        item.RecordedIn ids ∧ tree.faithful.entity (.module m) := by
  rcases r with _ | item
  · exact .inl ⟨rfl, Option.map_eq_none_iff.mp shown.eq_none⟩
  · obtain ⟨recorded, same⟩ := shown.eq_some
    obtain ⟨m, found, entity⟩ := Option.map_eq_some_iff.mp same
    have name : m.name = dotted := congrArg ModuleDoc.name (moduleDoc?_eq_some found).1
    exact .inr ⟨item, m, rfl, found, entity.symm, recorded, name ▸ flat, name ▸ found⟩

theorem faithful_members (proper : tree.disk.root.Proper) {item : Item} {m : ModuleDoc}
    (entity : item.entity = .module m) (recorded : item.RecordedIn ids)
    (fit : tree.faithful.entity (.module m)) :
    tree.faithful.Yields ids (tree.members item) fun all r =>
      ∃ t, r = some t ∧ ShowsTable all (tree.memberEntities m) t := by
  have here {more : List Entity} (grown : ids <+: more) : more[item.serial]? = some (.module m) :=
    entity ▸ recorded.mono grown
  simp only [members, Item.module?, entity]
  refine (yields_once (slot_members _) ?_).map fun all t grown holds => ?_
  · exact (faithful_loadMembers proper fit).weaken fun all t grown shown => ⟨m, here grown, shown⟩
  · obtain ⟨m', here', shown⟩ := holds
    rw [here grown] at here'
    cases here'
    exact ⟨t, rfl, shown⟩

theorem faithful_get? (proper : tree.disk.root.Proper) {item : Item} {m : ModuleDoc}
    (entity : item.entity = .module m) (recorded : item.RecordedIn ids)
    (fit : tree.faithful.entity (.module m)) (key : String) :
    tree.faithful.Yields ids (tree.get? item key) fun all r =>
      Shows all ((tree.memberEntities m).get? key) r := by
  refine (faithful_members proper entity recorded fit).map fun all r _ holds => ?_
  obtain ⟨t, rfl, shown⟩ := holds
  exact shown.get? key

end SourceTree

end MatlabOutline
