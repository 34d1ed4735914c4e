import MatlabOutline.Proofs.Catalog.Faithful

/-!
Names in faithful catalogs: what is found by a name, and the superclasses of a class, are what the
source tree means by them.
-/

namespace MatlabOutline

namespace SourceTree

open Catalog Law

variable {tree : SourceTree} {ids : List Entity}

theorem faithful_entity (proper : tree.disk.root.Proper) {name : String} (flat : HasNoSlash name) :
    tree.faithful.Yields ids (tree.entity name) fun all r => Shows all (tree.entityNamed name) r := by
  have whole := flat.classFolderName
  simp only [entity, entityNamed]
  refine (faithful_module whole).bind fun more found _ shown => ?_
  obtain ⟨rfl, absent⟩ | ⟨item, m, rfl, there, same, recorded, -⟩ := module_cases whole shown
  · simp only [absent]
    refine (faithful_module whole.splitLast).bind fun more found _ shown => ?_
    obtain ⟨rfl, absent⟩ | ⟨item, m, rfl, there, same, recorded, fit⟩ :=
      module_cases whole.splitLast shown
    · simp only [absent]
      exact yields_pure fun all _ => shows_none all
    · simp only [there]
      exact faithful_get? proper same recorded fit _
  · simp only [there, ← same]
    exact yields_pure fun all grown => shows_some (recorded.mono grown)

theorem faithful_findIn (proper : tree.disk.root.Proper) {outer : String} (flat : HasNoSlash outer)
    {packages : List String} (flats : ∀ package ∈ packages, HasNoSlash package) (last : String) :
    tree.faithful.Yields ids (tree.findIn outer packages last) fun all r =>
      Shows all (tree.entityIn outer packages last) r := by
  have package := flat.packageName flats
  simp only [findIn, entityIn]
  refine (faithful_module package).bind fun more found _ shown => ?_
  obtain ⟨rfl, absent⟩ | ⟨item, m, rfl, there, same, recorded, fit⟩ := module_cases package shown
  · simp only [absent]
    exact yields_pure fun all _ => shows_none all
  simp only [there]
  refine (faithful_get? proper same recorded fit last).bind fun more plain grown fetched => ?_
  have files : Shows more (((tree.memberEntities m).get? last).filter (!·.isModule))
      (plain.filter (·.module?.isNone)) := fetched.filter Item.isNone_module?
  generalize plain.filter (·.module?.isNone) = file at files ⊢
  rcases file with _ | file
  · simp only [files.eq_none]
    exact (faithful_get? proper same (recorded.mono grown) fit _).map fun all r _ fetched =>
      fetched.filter Item.isSome_module?
  · simp only [files.eq_some.2]
    exact yields_pure fun all grown => shows_some (files.eq_some.1.mono grown)

/-- What a level came to, for what it means. -/
def ShowsLevel (ids : List Entity) (level : Entity ⊕ List String) (r : Item ⊕ List String) : Prop :=
  (∃ x, r = .inl x ∧ x.RecordedIn ids ∧ level = .inl x.entity) ∨
    ∃ inner, r = .inr inner ∧ level = .inr inner

theorem plainFolders_eq (t : Table Item) : plainFolders t = folderNames (t.map Item.entity) := by
  rw [plainFolders, folderNames, Table.map, List.filterMap_map]
  congr 1
  funext entry
  obtain ⟨key, serial, e⟩ := entry
  cases e <;> rfl

theorem faithful_searchLevel (proper : tree.disk.root.Proper) {packages : List String}
    (flats : ∀ package ∈ packages, HasNoSlash package) (last : String) {folders : List String}
    (flat : ∀ folder ∈ folders, HasNoSlash folder) :
    tree.faithful.Yields ids (tree.searchLevel packages last folders) fun all r =>
      ShowsLevel all (tree.entityInLevel packages last folders) r := by
  induction folders generalizing ids with
  | nil => exact yields_pure fun _ _ => .inr ⟨[], rfl, rfl⟩
  | cons folder r ih =>
    have here := flat folder List.mem_cons_self
    have rest (ids : List Entity) := @ih ids fun f inside => flat f (List.mem_cons_of_mem folder inside)
    simp only [searchLevel, entityInLevel]
    refine (faithful_module here).bind fun more found _ shown => ?_
    obtain ⟨rfl, absent⟩ | ⟨item, m, rfl, there, same, recorded, fit⟩ := module_cases here shown
    · simp only [absent]
      exact rest more
    simp only [there]
    refine (faithful_findIn proper here flats last).bind fun more found grown fetched => ?_
    rcases found with _ | x
    · simp only [fetched.eq_none]
      refine (faithful_members proper same (recorded.mono grown) fit).bind
        fun more t _ listed => ?_
      obtain ⟨t, rfl, listed⟩ := listed
      refine (rest more).bind fun more found _ later => ?_
      rcases later with ⟨x, rfl, recorded, level⟩ | ⟨inner, rfl, level⟩
      · simp only [level]
        exact yields_pure fun all grown => .inl ⟨x, rfl, recorded.mono grown, rfl⟩
      · simp only [level]
        refine yields_pure fun all grown => .inr ⟨_, rfl, ?_⟩
        rw [Option.elim_some, plainFolders_eq, listed.2]
    · simp only [fetched.eq_some.2]
      exact yields_pure fun all grown => .inl ⟨x, rfl, fetched.eq_some.1.mono grown, rfl⟩

theorem faithful_searchLevels (proper : tree.disk.root.Proper) {packages : List String}
    (flats : ∀ package ∈ packages, HasNoSlash package) (last : String) (fuel : Nat) {depth : Nat}
    {folders : List String} (deep : ∀ dotted ∈ folders, IsDeep depth dotted) :
    tree.faithful.Yields ids (tree.searchLevels packages last fuel folders) fun all r =>
      Shows all (tree.entityInLevels packages last fuel folders) r := by
  induction fuel generalizing ids depth folders with
  | zero => cases folders <;> exact yields_pure fun all _ => shows_none all
  | succ fuel ih =>
    cases folders with
    | nil => exact yields_pure fun all _ => shows_none all
    | cons folder r =>
      rw [entityInLevels_cons]
      refine (faithful_searchLevel proper flats last fun d inside => (deep d inside).1).bind
        fun more found _ holds => ?_
      rcases holds with ⟨x, rfl, recorded, level⟩ | ⟨inner, rfl, level⟩
      · simp only [level]
        exact yields_pure fun all grown => shows_some (recorded.mono grown)
      · simp only [level]
        exact ih fun d inside => (isDeep_of_entityInLevel proper deep level d inside).1

theorem hasNoSlash_of_mem_packages {name : String} (dotted : isDottedIdentifier name = true) :
    ∀ package ∈ DottedName.trail (DottedName.splitLast name).1, HasNoSlash package := by
  intro package inside
  rw [DottedName.trail] at inside
  split at inside
  · cases inside
  · obtain ⟨part, member, rfl⟩ := List.mem_map.mp inside
    have flat := (hasNoSlash_of_isDottedIdentifier dotted).splitLast.segments part member
    simpa [HasNoSlash] using flat

theorem faithful_codeName (proper : tree.disk.root.Proper) (name : String) :
    tree.faithful.Yields ids (tree.codeName name) fun all r => Shows all (tree.codeEntity name) r := by
  unfold codeName
  by_cases dotted : isDottedIdentifier name
  · rw [if_pos dotted]
    refine (yields_once (slot_name _) ?_).map fun all r _ holds => holds
    refine yields_get fun c => ?_
    have flat := hasNoSlash_of_mem_packages dotted
    refine (faithful_searchLevels proper flat _ _ isDeep_root).bind fun more found _ shown => ?_
    -- How far the search may go depends on the catalog, but what it finds does not.
    rw [depthBound, entityInLevels_eq proper _ _ _ isDeep_root (Nat.le_add_left _ _)] at shown
    have means : Shows more (tree.codeEntity name) found := by
      rw [codeEntity, if_pos dotted]
      exact shown
    rcases found with _ | item
    · exact yields_pure fun all grown => means.mono grown
    · exact (yields_of_remarks (remarks_note _ _ _)).map fun all _ grown _ => means.mono grown
  · rw [if_neg dotted, codeEntity, if_neg dotted]
    exact yields_pure fun all _ => shows_none all

/-- Where nothing is found, the search goes on. -/
theorem faithful_orElse {first second : CatalogM (Option Item)} {e e' : Option Entity}
    (one : tree.faithful.Yields ids first fun all r => Shows all e r)
    (two : ∀ more, ids <+: more → tree.faithful.Yields more second fun all r => Shows all e' r) :
    tree.faithful.Yields ids (do
      match ← first with
      | some item => return some item
      | none => second) fun all r => Shows all (e <|> e') r := by
  refine one.bind fun more found grown shown => ?_
  rcases found with _ | item
  · rw [shown.eq_none]
    exact two more grown
  · rw [shown.eq_some.2]
    exact yields_pure fun all grown => shows_some (shown.eq_some.1.mono grown)

theorem faithful_resolve (proper : tree.disk.root.Proper) {name : String} (flat : HasNoSlash name)
    {within : Option String} (flat' : ∀ scope ∈ within, HasNoSlash scope) :
    tree.faithful.Yields ids (tree.resolve name within) fun all r =>
      Shows all (tree.resolvedEntity name within) r := by
  have anywhere (ids : List Entity) : tree.faithful.Yields ids (tree.resolveGlobal name)
      fun all r => Shows all (tree.globalEntity name) r :=
    faithful_orElse (faithful_entity proper flat) fun more _ => faithful_codeName proper name
  rcases inside : within.filter (!·.isEmpty) with _ | scope
  · simp only [resolve, resolvedEntity, inside]
    exact anywhere ids
  · simp only [resolve, resolvedEntity, inside]
    have outer := flat' scope (Option.filter_eq_some_iff.mp inside).1
    exact faithful_orElse (faithful_entity proper (outer.joinName flat)) fun more _ => anywhere more

theorem faithful_superclass (proper : tree.disk.root.Proper) {c : ClassDoc}
    (scope : HasNoSlash c.scope) {name : String} (flat : HasNoSlash name) :
    tree.faithful.Yields ids (tree.superclass c name) fun all r =>
      ShowsAll all (tree.baseNamed c.scope name) r.toList := by
  have none {act : CatalogM Unit} {ds : List Diagnostic} (remarks : Remarks act ds)
      (ids : List Entity) : tree.faithful.Yields ids (do act; return none)
        fun all (r : Option Item) => ShowsAll all [] r.toList :=
    (yields_of_remarks remarks).map fun _ _ _ _ => ⟨by simp, rfl⟩
  have warned (text : String) :=
    (remarks_note .warn .superclass text).bind fun _ => remarks_record ⟨.warning, c.location, text⟩
  unfold baseNamed
  refine (faithful_resolve proper flat (by simpa using scope)).bind fun more found _ shown => ?_
  rcases found with _ | item
  · simp only [shown.eq_none]
    split
    · exact none (remarks_note _ _ _) more
    · exact none (warned _) more
  · obtain ⟨recorded, means⟩ := shown.eq_some
    simp only [means]
    rcases kind : item.entity with m | base | f | u | a
    case cls =>
      simp only [Item.class?, kind]
      exact yields_pure fun all grown => ⟨by simpa using recorded.mono grown, by simp [kind]⟩
    all_goals
      simp only [Item.class?, kind]
      exact none (warned _) more

theorem faithful_loadBases (proper : tree.disk.root.Proper) {c : ClassDoc} (scope : HasNoSlash c.scope)
    {names : List String} (flat : ∀ name ∈ names, HasNoSlash name) :
    tree.faithful.Yields ids (tree.loadBases c names) fun all l =>
      ShowsAll all (names.flatMap (tree.baseNamed c.scope)) l := by
  induction names generalizing ids with
  | nil => exact yields_pure fun _ _ => ⟨by simp, rfl⟩
  | cons name r ih =>
    refine (faithful_superclass proper scope (flat name List.mem_cons_self)).bind
      fun more item _ first => ?_
    refine (ih fun n inside => flat n (List.mem_cons_of_mem name inside)).map
      fun all later grown rest => ⟨fun x inside => ?_, ?_⟩
    · rcases List.mem_append.mp inside with here | below
      · exact (first.1 x here).mono grown
      · exact rest.1 x below
    · rw [List.map_append, first.2, rest.2, List.flatMap_cons]

theorem faithful_bases (proper : tree.disk.root.Proper) {item : Item} {c : ClassDoc}
    (entity : item.entity = .cls c) (recorded : item.RecordedIn ids)
    (fit : tree.faithful.entity (.cls c)) :
    tree.faithful.Yields ids (tree.bases item) fun all r =>
      ∃ l, r = some l ∧ ShowsAll all (tree.baseEntities c) l := by
  have here {more : List Entity} (grown : ids <+: more) : more[item.serial]? = some (.cls c) :=
    entity ▸ recorded.mono grown
  simp only [bases, Item.class?, entity]
  refine (yields_once (slot_bases _) ?_).map fun all l grown holds => ?_
  · exact (faithful_loadBases proper fit.1 fit.2).weaken fun all l grown shown =>
      ⟨c, here grown, shown⟩
  · obtain ⟨c', here', shown⟩ := holds
    rw [here grown] at here'
    cases here'
    exact ⟨l, rfl, shown⟩

end SourceTree

end MatlabOutline
