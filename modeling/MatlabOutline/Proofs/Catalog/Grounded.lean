import MatlabOutline.Proofs.Catalog.Law

/-!
Grounded catalogs: a module in the catalog is a folder of the source tree, and the folders among its
members carry longer names. So every search for a name that code uses comes to an end.
-/

namespace MatlabOutline

namespace SourceTree

open Catalog Law

variable {tree : SourceTree} {ids : List Entity}

/-- The module with this name, in its folder of the source tree. -/
def IsModule (tree : SourceTree) (dotted : String) (e : Entity) : Prop :=
  (∃ doc, e = .module { name := dotted, path := tree.modulePath dotted, doc }) ∧
    isModuleName dotted = true ∧ tree.disk.isFolder (tree.modulePath dotted) = true

/-- An item that can be a member of the module called `outer`: modules lie in its folder. -/
def IsMember (ids : List Entity) (outer : String) (item : Item) : Prop :=
  item.RecordedIn ids ∧
    ∀ m, item.module? = some m → ∃ name, IsEntryName name ∧ m.name = joinName outer name

theorem IsMember.mono {outer : String} {item : Item} (member : IsMember ids outer item)
    {more : List Entity} (grown : ids <+: more) : IsMember more outer item :=
  ⟨member.1.mono grown, member.2⟩

/-- Every item is the one that its number was given to, modules are folders of the source tree, and
the folders among the members of a module lie in it. -/
def grounded (tree : SourceTree) : Law where
  entity _ := True
  holds ids
    | .module dotted r => ∀ x ∈ r.item?, x.RecordedIn ids ∧ tree.IsModule dotted x.entity
    | .file _ r => ∀ x ∈ r.item?, x.RecordedIn ids ∧ x.module? = none
    | .name _ r => ∀ x ∈ r.item?, x.RecordedIn ids
    | .members serial t =>
      ∃ m, ids[serial]? = some (.module m) ∧ ∀ e ∈ t.entries, IsMember ids m.name e.2
    | .bases _ l => ∀ x ∈ l, x.RecordedIn ids
  mono {ids more result} grown holds := by
    cases result with
    | module _ _ => exact fun x hx => ⟨(holds x hx).1.mono grown, (holds x hx).2⟩
    | file _ _ => exact fun x hx => ⟨(holds x hx).1.mono grown, (holds x hx).2⟩
    | name _ _ => exact fun x hx => (holds x hx).mono grown
    | members serial t =>
      obtain ⟨m, recorded, inner⟩ := holds
      have same : Item.RecordedIn ids ⟨serial, .module m⟩ := recorded
      exact ⟨m, same.mono grown, fun e he => (inner e he).mono grown⟩
    | bases _ _ => exact fun x hx => (holds x hx).mono grown

theorem module?_eq_none_of_declaredIn {scope : String} {item : Item}
    (declared : item.entity.DeclaredIn scope) : item.module? = none := by
  unfold Item.module?
  split
  · next m same =>
    rw [same] at declared
    exact declared.elim
  · rfl

theorem grounded_file (path scope : String) :
    tree.grounded.Yields ids (tree.file path scope) fun all r =>
      ∀ x ∈ r, x.RecordedIn all ∧ x.module? = none := by
  rw [file_eq]
  refine (yields_once (slot_file _) ?_).map fun more r _ holds => holds
  refine (yields_of_loadsAlone (tree.loadsAlone_loadFile path scope) fun _ _ => trivial).weaken
    fun more r _ holds => ?_
  intro x inside
  have declared : tree.fileEntity path scope = some x.entity := by
    rw [← holds.2, inside]
    rfl
  exact ⟨holds.1 x inside, module?_eq_none_of_declaredIn (declaredIn_fileEntity declared)⟩

theorem grounded_module (dotted : String) :
    tree.grounded.Yields ids (tree.module dotted) fun all r =>
      ∀ x ∈ r, x.RecordedIn all ∧ tree.IsModule dotted x.entity := by
  refine (yields_once (slot_module _) ?_).map fun more r _ holds => holds
  simp only [loadModule]
  split
  · next there =>
    rw [Bool.and_eq_true] at there
    refine (yields_of_remarks (remarks_note _ _ _)).bind fun more _ _ _ => ?_
    have docs : tree.grounded.Yields more (tree.folderDoc (tree.modulePath dotted) dotted)
        fun _ _ => True := by
      unfold folderDoc
      simp only
      split
      · exact (grounded_file _ _).map fun _ _ _ _ => trivial
      · exact yields_pure fun _ _ => trivial
    refine docs.bind fun more doc _ _ => (yields_number trivial).map fun all item _ holds => ?_
    rintro x ⟨⟩
    exact ⟨holds.1, ⟨doc, holds.2⟩, there⟩
  · exact yields_pure fun _ _ x inside => by cases inside

theorem grounded_mergeFiles (scope : String) (c : ClassDoc) (paths : List String) :
    tree.grounded.Yields ids (tree.mergeFiles scope c paths) fun _ _ => True := by
  induction paths generalizing ids c with
  | nil => exact yields_pure fun _ _ => trivial
  | cons path r ih =>
    refine (grounded_file path scope).bind fun more found _ _ => ?_
    rcases found with _ | item
    · exact ih c
    · dsimp only
      split
      · exact ih _
      · exact (yields_of_remarks (remarks_note _ _ _)).bind fun _ _ _ _ => ih c

theorem grounded_numberCopy (made : ClassDoc) (origin : Item) :
    tree.grounded.Yields ids (numberCopy made origin) fun all x =>
      x.RecordedIn all ∧ x.entity = .cls made :=
  yields_numberCopy trivial fun _ _ _ holds x hx => (holds x hx).mono (List.prefix_append _ _)

theorem grounded_classFolder (path name scope : String) :
    tree.grounded.Yields ids (tree.classFolder path name scope) fun all r =>
      ∀ x ∈ r, x.RecordedIn all ∧ x.module? = none := by
  refine (yields_once (slot_file _) ?_).map fun more r _ holds => holds
  simp only [loadClassFolder]
  refine (grounded_file _ _).bind fun more found _ holds => ?_
  rcases found with _ | item
  · exact yields_pure fun _ _ x inside => by cases inside
  dsimp only
  split
  · refine yields_pure fun all grown x inside => ?_
    cases inside
    exact ⟨(holds item rfl).1.mono grown, (holds item rfl).2⟩
  · split
    · exact (yields_of_remarks (remarks_report _ _)).map fun _ _ _ _ x inside => by cases inside
    · refine (grounded_mergeFiles scope _ _).bind fun more merged _ _ => ?_
      refine (grounded_numberCopy merged item).map fun all copy _ made x inside => ?_
      cases inside
      exact ⟨made.1, by simp [Item.module?, made.2]⟩

theorem IsModule.name_eq {dotted : String} {item : Item} {m : ModuleDoc}
    (real : tree.IsModule dotted item.entity) (same : item.module? = some m) : m.name = dotted := by
  obtain ⟨⟨doc, entity⟩, -⟩ := real
  simp only [Item.module?, entity, Option.some.injEq] at same
  rw [← same]

theorem grounded_member (m : ModuleDoc) {name : String} (entry : IsEntryName name) :
    tree.grounded.Yields ids (tree.member m name) fun all r =>
      ∀ key x, r = some (key, some x) → IsMember all m.name x := by
  have alone (r : Option Item) (key : String) (all : List Entity)
      (holds : ∀ x ∈ r, x.RecordedIn all ∧ x.module? = none) (k : String) (x : Item)
      (same : some (key, r) = some (k, some x)) : IsMember all m.name x := by
    cases same
    refine ⟨(holds x rfl).1, fun inner found => ?_⟩
    simp [(holds x rfl).2] at found
  unfold member
  dsimp only
  split
  · exact yields_pure fun _ _ _ _ same => by cases same
  · split
    · split
      · exact (grounded_classFolder _ _ _).map fun all r _ => alone r _ all
      · refine (grounded_module _).map fun all r _ holds k x same => ?_
        cases same
        exact ⟨(holds x rfl).1, fun inner found => ⟨name, entry, (holds x rfl).2.name_eq found⟩⟩
    · split
      · exact yields_pure fun _ _ _ _ same => by cases same
      · split
        · exact (grounded_file _ _).map fun all r _ => alone r _ all
        · exact yields_pure fun _ _ _ _ same => by cases same

theorem grounded_addMembers (m : ModuleDoc) {names : List String}
    (entries : ∀ name ∈ names, IsEntryName name) {t : Table Item}
    (before : ∀ e ∈ t.entries, IsMember ids m.name e.2) :
    tree.grounded.Yields ids (tree.addMembers m t names) fun all t =>
      ∀ e ∈ t.entries, IsMember all m.name e.2 := by
  induction names generalizing ids t with
  | nil => exact yields_pure fun _ grown e inside => (before e inside).mono grown
  | cons name r ih =>
    have rest := fun n inside => entries n (List.mem_cons_of_mem name inside)
    refine (grounded_member m (entries name List.mem_cons_self)).bind fun more found grown holds => ?_
    have still := fun e inside => (before e inside).mono grown
    split
    · next key item =>
      split
      · refine (yields_of_remarks (remarks_note _ _ _)).bind fun all _ grown' _ => ?_
        exact ih rest fun e inside => (still e inside).mono grown'
      · refine ih rest fun e inside => ?_
        rcases Table.mem_entries_insert inside with rfl | old
        · exact holds key item rfl
        · exact still e old
    · exact ih rest still

theorem grounded_loadMembers (proper : tree.disk.root.Proper) (m : ModuleDoc) :
    tree.grounded.Yields ids (tree.loadMembers m) fun all t =>
      ∀ e ∈ t.entries, IsMember all m.name e.2 := by
  unfold loadMembers
  split
  · exact (yields_of_remarks (remarks_report _ _)).map fun _ _ _ _ e inside => by cases inside
  · next names listed =>
    exact grounded_addMembers m (Disk.isEntryName_of_list proper listed) fun e inside => by
      cases inside

theorem grounded_members (proper : tree.disk.root.Proper) {item : Item}
    (recorded : item.RecordedIn ids) :
    tree.grounded.Yields ids (tree.members item) fun all r =>
      ∀ t ∈ r, ∃ m, item.module? = some m ∧ ∀ e ∈ t.entries, IsMember all m.name e.2 := by
  unfold members
  split
  · next m same =>
    have entity : item.entity = .module m := by
      unfold Item.module? at same
      split at same
      · next m' isModule => rw [isModule, Option.some.inj same]
      · cases same
    refine (yields_once (slot_members _) ?_).map fun all t grown holds => ?_
    · refine (grounded_loadMembers proper m).weaken fun all t grown inner => ⟨m, ?_, inner⟩
      have now := recorded.mono grown
      rwa [Item.RecordedIn, entity] at now
    · rintro _ ⟨⟩
      obtain ⟨m', numbered', inner⟩ := holds
      have now := recorded.mono grown
      rw [Item.RecordedIn, entity, numbered'] at now
      cases now
      exact ⟨m, same, inner⟩
  · exact yields_pure fun _ _ t inside => by cases inside

theorem grounded_get? (proper : tree.disk.root.Proper) {item : Item}
    (recorded : item.RecordedIn ids) (key : String) :
    tree.grounded.Yields ids (tree.get? item key) fun all r => ∀ x ∈ r, x.RecordedIn all := by
  refine (grounded_members proper recorded).map fun all r _ holds x inside => ?_
  obtain ⟨t, rfl, found⟩ := Option.bind_eq_some_iff.mp inside
  obtain ⟨m, -, inner⟩ := holds t rfl
  exact (inner _ (Table.mem_entries_of_get? found)).1

theorem grounded_findIn (proper : tree.disk.root.Proper) (outer : String) (packages : List String)
    (last : String) :
    tree.grounded.Yields ids (tree.findIn outer packages last) fun all r =>
      ∀ x ∈ r, x.RecordedIn all := by
  refine (grounded_module _).bind fun more found _ holds => ?_
  rcases found with _ | item
  · exact yields_pure fun _ _ x inside => by cases inside
  · have recorded := (holds item rfl).1
    refine (grounded_get? proper recorded last).bind fun more plain grown fetched => ?_
    split
    · next x same =>
      refine yields_pure fun all grown' y inside => ?_
      cases inside
      exact (fetched x (Option.filter_eq_some_iff.mp same).1).mono grown'
    · refine (grounded_get? proper (recorded.mono grown) _).map fun all r _ fetched x inside => ?_
      exact fetched x (Option.filter_eq_some_iff.mp inside).1

/-- A plain folder in a module lies deeper than the module. -/
theorem isDeep_of_mem_plainFolders {outer dotted : String} {depth : Nat} {t : Table Item}
    (deep : IsDeep depth outer) (inner : ∀ e ∈ t.entries, IsMember ids outer e.2)
    (member : dotted ∈ plainFolders t) : IsDeep (depth + 1) dotted := by
  obtain ⟨⟨key, item⟩, inside, folder⟩ := List.mem_filterMap.mp member
  rcases found : item.module? with _ | m
  · simp [found] at folder
  · obtain ⟨name, entry, named⟩ := (inner _ inside).2 m found
    simp only [found, Option.ite_none_left_eq_some, Option.some.injEq] at folder
    rw [← folder.2, named]
    exact deep.joinName entry

/-- The folders that a level gives lie deeper than those of the level, and a level that is as deep
as the disk is high gives none. -/
theorem grounded_searchLevel (proper : tree.disk.root.Proper) (packages : List String) (last : String)
    {depth : Nat} {folders : List String} (deep : ∀ dotted ∈ folders, IsDeep depth dotted) :
    tree.grounded.Yields ids (tree.searchLevel packages last folders) fun all r =>
      (∀ x, r = .inl x → x.RecordedIn all) ∧ ∀ inner, r = .inr inner →
        ∀ dotted ∈ inner, IsDeep (depth + 1) dotted ∧ depth < tree.disk.root.height := by
  induction folders generalizing ids with
  | nil => exact yields_pure fun _ _ => ⟨by simp, by simp⟩
  | cons folder r ih =>
    have rest := fun d member => deep d (List.mem_cons_of_mem folder member)
    refine (grounded_module folder).bind fun more found _ holds => ?_
    rcases found with _ | item
    · exact ih rest
    · obtain ⟨recorded, real⟩ := holds item rfl
      refine (grounded_findIn proper folder packages last).bind fun more found grown fetched => ?_
      rcases found with _ | x
      · refine (grounded_members proper (recorded.mono grown)).bind fun more t _ listed => ?_
        refine (ih rest).bind fun more found grown later => ?_
        rcases found with x | inner
        · refine yields_pure fun all grown => ⟨?_, by simp⟩
          rintro _ ⟨⟩
          exact (later.1 x rfl).mono grown
        · refine yields_pure fun all grown => ⟨by simp, ?_⟩
          rintro _ ⟨⟩ dotted member
          rcases List.mem_append.mp member with here | below
          · rcases t with _ | t
            · cases here
            · obtain ⟨m, same, members⟩ := listed t rfl
              rw [real.name_eq same] at members
              have here' := deep folder List.mem_cons_self
              have low := length_trail_lt_height here'.1 real.2.1 real.2.2
              exact ⟨isDeep_of_mem_plainFolders here' members here, here'.2.trans_lt low⟩
          · exact later.2 inner rfl dotted below
      · refine yields_pure fun all grown => ⟨?_, by simp⟩
        rintro _ ⟨⟩
        exact (fetched x rfl).mono grown

theorem grounded_searchLevels (proper : tree.disk.root.Proper) (packages : List String) (last : String)
    (fuel : Nat) {depth : Nat} {folders : List String}
    (deep : ∀ dotted ∈ folders, IsDeep depth dotted) :
    tree.grounded.Yields ids (tree.searchLevels packages last fuel folders) fun all r =>
      ∀ x ∈ r, x.RecordedIn all := by
  induction fuel generalizing ids depth folders with
  | zero => cases folders <;> exact yields_pure fun _ _ x inside => by cases inside
  | succ fuel ih =>
    cases folders with
    | nil => exact yields_pure fun _ _ x inside => by cases inside
    | cons folder r =>
      refine (grounded_searchLevel proper packages last deep).bind fun more found _ holds => ?_
      rcases found with x | inner
      · refine yields_pure fun all grown y inside => ?_
        cases inside
        exact (holds.1 x rfl).mono grown
      · exact ih fun dotted member => (holds.2 inner rfl dotted member).1

theorem grounded_codeName (proper : tree.disk.root.Proper) (name : String) :
    tree.grounded.Yields ids (tree.codeName name) fun all r => ∀ x ∈ r, x.RecordedIn all := by
  unfold codeName
  split
  · refine (yields_once (slot_name _) ?_).map fun all r _ holds => holds
    simp only [loadCodeName]
    refine yields_get fun c => (grounded_searchLevels proper _ _ _ isDeep_root).bind
      fun more found _ holds => ?_
    rcases found with _ | item
    · exact yields_pure fun _ _ x inside => by cases inside
    · refine (yields_of_remarks (remarks_note _ _ _)).map fun all _ grown _ x inside => ?_
      cases inside
      exact (holds item rfl).mono grown
  · exact yields_pure fun _ _ x inside => by cases inside

theorem grounded_entity (proper : tree.disk.root.Proper) (name : String) :
    tree.grounded.Yields ids (tree.entity name) fun all r => ∀ x ∈ r, x.RecordedIn all := by
  refine (grounded_module _).bind fun more found _ holds => ?_
  rcases found with _ | item
  · refine (grounded_module _).bind fun more found _ holds => ?_
    rcases found with _ | item
    · exact yields_pure fun _ _ x inside => by cases inside
    · exact grounded_get? proper (holds item rfl).1 _
  · refine yields_pure fun all grown x inside => ?_
    cases inside
    exact (holds item rfl).1.mono grown

theorem grounded_resolve (proper : tree.disk.root.Proper) (name : String) (within : Option String) :
    tree.grounded.Yields ids (tree.resolve name within) fun all r => ∀ x ∈ r, x.RecordedIn all := by
  have found (item : Item) (ids : List Entity)
      (holds : ∀ x ∈ some item, x.RecordedIn ids) :
      tree.grounded.Yields ids (pure (some item)) fun all r => ∀ x ∈ r, x.RecordedIn all :=
    yields_pure fun all grown x inside => (holds x inside).mono grown
  have anywhere (ids : List Entity) :
      tree.grounded.Yields ids (tree.resolveGlobal name) fun all r => ∀ x ∈ r, x.RecordedIn all := by
    refine (grounded_entity proper name).bind fun more r _ holds => ?_
    rcases r with _ | item
    · exact grounded_codeName proper name
    · exact found item more holds
  unfold resolve
  split
  · exact anywhere ids
  · refine (grounded_entity proper _).bind fun more r _ holds => ?_
    rcases r with _ | item
    · exact anywhere more
    · exact found item more holds

theorem grounded_superclass (proper : tree.disk.root.Proper) (c : ClassDoc) (name : String) :
    tree.grounded.Yields ids (tree.superclass c name) fun all r => ∀ x ∈ r, x.RecordedIn all := by
  have warned (text : String) (ids : List Entity) :
      tree.grounded.Yields ids (do warnSuperclass c text; return none)
        fun all (r : Option Item) => ∀ x ∈ r, x.RecordedIn all :=
    (yields_of_remarks ((remarks_note _ _ _).bind fun _ => remarks_record _)).map
      fun _ _ _ _ x inside => by cases inside
  refine (grounded_resolve proper name (some c.scope)).bind fun more found _ holds => ?_
  rcases found with _ | item
  · dsimp only
    split
    · exact (yields_of_remarks (remarks_note _ _ _)).map fun _ _ _ _ x inside => by cases inside
    · exact warned _ more
  · dsimp only
    split
    · exact yields_pure fun all grown x inside => (holds x inside).mono grown
    · exact warned _ more

theorem grounded_loadBases (proper : tree.disk.root.Proper) (c : ClassDoc) (names : List String) :
    tree.grounded.Yields ids (tree.loadBases c names) fun all l => ∀ x ∈ l, x.RecordedIn all := by
  induction names generalizing ids with
  | nil => exact yields_pure fun _ _ x inside => by cases inside
  | cons name r ih =>
    refine (grounded_superclass proper c name).bind fun more item _ holds => ?_
    refine ih.map fun all later grown holds' x inside => ?_
    rcases List.mem_append.mp inside with first | later
    · exact (holds x (Option.mem_toList.mp first)).mono grown
    · exact holds' x later

theorem grounded_bases (proper : tree.disk.root.Proper) (item : Item) :
    tree.grounded.Yields ids (tree.bases item) fun all r =>
      ∀ l ∈ r, ∀ x ∈ l, x.RecordedIn all := by
  unfold bases
  split
  · next c _ =>
    refine (yields_once (slot_bases _) (grounded_loadBases proper c _)).map fun all l _ holds => ?_
    rintro _ ⟨⟩
    exact holds
  · exact yields_pure fun _ _ l inside => by cases inside

/-- The search as a queue of folders without a bound: the first folder is taken, and if what is
sought is not in it, the plain folders in it are put at the end. -/
inductive Searches (tree : SourceTree) (packages : List String) (last : String) :
    List String → Catalog → Option Item → Catalog → Prop
  | done (c : Catalog) : Searches tree packages last [] c none c
  | missing {folder : String} {r : List String} {c c₁ c₂ : Catalog} {result : Option Item} :
      (tree.module folder).run c = (none, c₁) → Searches tree packages last r c₁ result c₂ →
      Searches tree packages last (folder :: r) c result c₂
  | found {folder : String} {r : List String} {c c₁ c₂ : Catalog} {item x : Item} :
      (tree.module folder).run c = (some item, c₁) →
      (tree.findIn folder packages last).run c₁ = (some x, c₂) →
      Searches tree packages last (folder :: r) c (some x) c₂
  | further {folder : String} {r : List String} {c c₁ c₂ c₃ c₄ : Catalog} {item : Item}
      {t : Option (Table Item)} {result : Option Item} :
      (tree.module folder).run c = (some item, c₁) →
      (tree.findIn folder packages last).run c₁ = (none, c₂) →
      (tree.members item).run c₂ = (t, c₃) →
      Searches tree packages last (r ++ t.elim [] plainFolders) c₃ result c₄ →
      Searches tree packages last (folder :: r) c result c₄

/-- A level is what the queue does with the folders at its front. -/
theorem searches_of_searchLevel (tree : SourceTree) (packages : List String) (last : String)
    (folders queue : List String) (c : Catalog) :
    match (tree.searchLevel packages last folders).run c with
    | (.inl x, c₁) => tree.Searches packages last (folders ++ queue) c (some x) c₁
    | (.inr inner, c₁) => ∀ result c₂, tree.Searches packages last (queue ++ inner) c₁ result c₂ →
        tree.Searches packages last (folders ++ queue) c result c₂ := by
  induction folders generalizing queue c with
  | nil => exact fun result c₂ rest => by simpa using rest
  | cons folder r ih =>
    rcases first : (tree.module folder).run c with ⟨_ | item, c₁⟩
    · simp only [searchLevel, run_bind, first]
      have rest := ih queue c₁
      split at rest
      · next run => simpa [run] using Searches.missing first rest
      · next run => simpa [run] using fun result c₂ later => Searches.missing first (rest result c₂ later)
    · rcases second : (tree.findIn folder packages last).run c₁ with ⟨_ | x, c₂⟩
      · rcases third : (tree.members item).run c₂ with ⟨t, c₃⟩
        simp only [searchLevel, run_bind, first, second, third]
        have rest := ih (queue ++ t.elim [] plainFolders) c₃
        split at rest
        · next run =>
          simp only [run]
          refine Searches.further first second third ?_
          simpa using rest
        · next inner c₄ run =>
          simp only [run]
          intro result c₅ later
          refine Searches.further first second third ?_
          simpa using rest result c₅ (by simpa using later)
      · simp only [searchLevel, run_bind, first, second]
        exact Searches.found first second

/-- One more level is enough, if the levels are enough for the folders below. -/
theorem searches_of_level (proper : tree.disk.root.Proper) (packages : List String) (last : String)
    (fuel : Nat) {depth : Nat} {folders : List String} {c : Catalog}
    (deep : ∀ dotted ∈ folders, IsDeep depth dotted) (kept : tree.grounded.Kept ids c)
    (below : ∀ inner more c₁, (∀ dotted ∈ inner, IsDeep (depth + 1) dotted) →
      (inner ≠ [] → depth < tree.disk.root.height) → tree.grounded.Kept more c₁ →
      let run := (tree.searchLevels packages last fuel inner).run c₁
      tree.Searches packages last inner c₁ run.1 run.2) :
    let run := (tree.searchLevels packages last (fuel + 1) folders).run c
    tree.Searches packages last folders c run.1 run.2 := by
  rcases folders with _ | ⟨folder, r⟩
  · exact .done c
  obtain ⟨more, -, kept', facts⟩ :=
    grounded_searchLevel proper packages last deep ids c List.prefix_rfl kept
  have queue := tree.searches_of_searchLevel packages last (folder :: r) [] c
  simp only [searchLevels, run_bind]
  rcases run : (tree.searchLevel packages last (folder :: r)).run c with ⟨x | inner, c₁⟩
  · simp only [run, List.append_nil] at queue
    exact queue
  · simp only [run, List.append_nil, List.nil_append] at queue kept' facts
    refine queue _ _ (below inner more c₁ (fun d member => (facts.2 inner rfl d member).1) ?_ kept')
    intro filled
    obtain ⟨d, member⟩ := List.exists_mem_of_ne_nil inner filled
    exact (facts.2 inner rfl d member).2

/-- With enough levels the search by levels is the search by the queue. -/
theorem searches_of_searchLevels (proper : tree.disk.root.Proper) (packages : List String)
    (last : String) {fuel depth : Nat} {folders : List String}
    (deep : ∀ dotted ∈ folders, IsDeep depth dotted)
    (enough : tree.disk.root.height ≤ depth + fuel) {c : Catalog} (kept : tree.grounded.Kept ids c) :
    let run := (tree.searchLevels packages last (fuel + 1) folders).run c
    tree.Searches packages last folders c run.1 run.2 := by
  induction fuel generalizing depth folders ids c with
  | zero =>
    refine searches_of_level proper packages last 0 deep kept fun inner more c₁ _ low _ => ?_
    have none : inner = [] := by
      by_contra filled
      exact absurd (low filled) (by omega)
    subst none
    exact .done c₁
  | succ fuel ih =>
    exact searches_of_level proper packages last (fuel + 1) deep kept
      fun inner more c₁ deep' _ kept' => ih deep' (by omega) kept'

/-- Whatever is sought, the search that begins in this catalog comes to its end: the bound on its
depth is not what ends it. -/
def SearchEnds (tree : SourceTree) (c : Catalog) : Prop :=
  ∀ packages last,
    let run := (tree.searchLevels packages last (tree.depthBound c) [""]).run c
    tree.Searches packages last [""] c run.1 run.2

theorem searchEnds_of_kept (proper : tree.disk.root.Proper) {c : Catalog}
    (kept : tree.grounded.Kept ids c) : tree.SearchEnds c :=
  fun packages last => searches_of_searchLevels proper packages last isDeep_root
    (by omega) kept

end SourceTree

end MatlabOutline
