import MatlabOutline.Proofs.Catalog.Folders
import MatlabOutline.Proofs.Catalog.Links

/-!
The members of a module against the folders on the disk, and the two ways to a member: by its key,
and by its dotted name.
-/

namespace MatlabOutline

open Catalog Law

theorem not_lex_append (cs ds : List Char) : ¬ List.Lex (· < ·) (cs ++ ds) cs := by
  induction cs with
  | nil => nofun
  | cons c cs ih =>
    intro lower
    cases lower with
    | rel less => exact absurd less (Char.lt_irrefl c)
    | cons rest => exact ih rest

theorem le_append (a b : String) : a ≤ a ++ b := by
  rw [← String.not_lt]
  intro lower
  apply not_lex_append a.toList b.toList
  rw [← String.toList_append]
  exact lower

namespace Session

variable {tree : SourceTree} {given : List Item} {c : Catalog} {item : Item} {m : ModuleDoc}

/-- The session that begins with the root of the source tree. -/
theorem ofRoot (loaded : (((Call.module "").run tree).run {}).1 = .one (some item)) :
    Session tree Call.IsFlat [] {} [item] (((Call.module "").run tree).run {}).2 := by
  have flat : HasNoSlash "" := List.not_mem_nil
  have first := (start : Session tree Call.IsFlat [] {} [] {}).call (.module "") flat (by simp [Call.uses])
  rwa [loaded] at first

/-- A module at hand is the one with its name, and its members are those that it means. -/
theorem exists_members (proper : tree.disk.root.Proper)
    (session : Session tree Call.IsFlat [] {} given c) (inside : item ∈ given)
    (isModule : item.module? = some m) :
    (HasNoSlash m.name ∧ tree.moduleDoc? m.name = some m) ∧
      ∃ t, ((tree.members item).run c).1 = some t ∧ t.map Item.entity = tree.memberEntities m := by
  obtain ⟨ids, kept, recorded⟩ := session.exists_faithful proper
  obtain ⟨here, fit⟩ := recorded item inside
  have entity := Item.entity_of_module? isModule
  rw [entity] at fit
  obtain ⟨all, -, -, t, listed, shown⟩ :=
    SourceTree.faithful_members proper entity here fit ids c List.prefix_rfl kept
  exact ⟨fit, t, listed, shown.2⟩

/-- Every lookup gives what it means. -/
theorem answer_eq (proper : tree.disk.root.Proper) (session : Session tree Call.IsFlat [] {} given c)
    {call : Call} (flat : call.IsFlat) (about : ∀ item ∈ call.uses, item ∈ given) :
    ((call.run tree).run c).1.map Item.entity = call.meaning tree := by
  obtain ⟨ids, kept, recorded⟩ := session.exists_faithful proper
  obtain ⟨all, -, -, means⟩ := SourceTree.faithful_call proper flat
    (fun item member => recorded item (about item member)) ids c List.prefix_rfl kept
  exact means.2

theorem entity_of_module (proper : tree.disk.root.Proper)
    (session : Session tree Call.IsFlat [] {} given c) {dotted : String} (flat : HasNoSlash dotted) :
    ((tree.module dotted).run c).1.map Item.entity = (tree.moduleDoc? dotted).map .module :=
  Answer.one.inj (@answer_eq tree given c proper session (.module dotted) flat (by simp [Call.uses]))

theorem entity_of_entity (proper : tree.disk.root.Proper)
    (session : Session tree Call.IsFlat [] {} given c) {name : String} (flat : HasNoSlash name) :
    ((tree.entity name).run c).1.map Item.entity = tree.entityNamed name :=
  Answer.one.inj (@answer_eq tree given c proper session (.entity name) flat (by simp [Call.uses]))

theorem entity_of_get? (proper : tree.disk.root.Proper)
    (session : Session tree Call.IsFlat [] {} given c) (inside : item ∈ given)
    (isModule : item.module? = some m) (key : String) :
    ((tree.get? item key).run c).1.map Item.entity = (tree.memberEntities m).get? key := by
  have answer : ((tree.get? item key).run c).1.map Item.entity =
      (item.module?.map tree.memberEntities).bind (·.get? key) :=
    Answer.one.inj (@answer_eq tree given c proper session (.get item key) trivial
      (by simpa [Call.uses] using inside))
  rw [answer, isModule, Option.map_some, Option.bind_some]

theorem mem_of_get? {key : String} {x : Item} (found : ((tree.get? item key).run c).1 = some x)
    (given : List Item) : x ∈ given ++ (((Call.get item key).run tree).run c).1.items := by
  have answer : (((Call.get item key).run tree).run c).1 = .one (some x) := congrArg Answer.one found
  simp [answer, Answer.items]

theorem clear (proper : tree.disk.root.Proper) (session : Session tree Call.IsFlat [] {} given c) :
    Clear Key.top c :=
  fun key member _ => (session.loadedOnce proper).known key member

end Session

namespace SourceTree

variable {tree : SourceTree} {m : ModuleDoc} {key : String}

/-- A module among the members is that of the folder with its key. -/
theorem hasFolder_of_get? (proper : tree.disk.root.Proper) {inner : ModuleDoc}
    (found : (tree.memberEntities m).get? key = some (.module inner)) :
    IsEntryName key ∧ ¬IsMarked key ∧ tree.disk.HasFolder m.path key ∧
      tree.moduleDoc? (joinName m.name key) = some inner := by
  obtain ⟨names, name, listed, inside, there⟩ := exists_entry_of_get? found
  have entry := Disk.isEntryName_of_list proper listed name inside
  rcases memberEntity_eq_some entry there with
    ⟨_, ⟨⟩, rfl, free, folder, same⟩ | ⟨declared, -⟩ | ⟨declared, -⟩
  · exact ⟨entry, free, (Disk.hasFolder_iff listed entry).mpr folder, same⟩
  · exact declared.elim
  · exact declared.elim

theorem isEntryName_of_hasFolder (proper : tree.disk.root.Proper) (there : tree.moduleDoc? m.name = some m)
    (folder : tree.disk.HasFolder m.path key) : IsEntryName key := by
  obtain ⟨-, -, names, listed⟩ := exists_list_of_moduleDoc? there
  exact Disk.isEntryName_of_list proper listed key (Disk.mem_of_hasFolder listed folder)

/-- The path of a module among the members is that of its folder, unless its key is cut again. -/
theorem path_eq_join_iff (proper : tree.disk.root.Proper) (flat : HasNoSlash m.name)
    (there : tree.moduleDoc? m.name = some m) {inner : ModuleDoc}
    (found : (tree.memberEntities m).get? key = some (.module inner)) :
    inner.path = PathText.join m.path key ↔ '.' ∉ key.toList := by
  obtain ⟨entry, -, -, same⟩ := hasFolder_of_get? proper found
  obtain ⟨rfl, valid, -⟩ := moduleDoc?_eq_some same
  rw [(exists_list_of_moduleDoc? there).1]
  exact modulePath_joinName_iff entry (flat.joinName entry.whole) valid

/-- A folder is a member under its name if that is not cut again and no class folder takes it. -/
theorem get?_of_hasFolder (proper : tree.disk.root.Proper) (there : tree.moduleDoc? m.name = some m)
    (folder : tree.disk.HasFolder m.path key) (plain : '.' ∉ key.toList) (free : ¬IsMarked key)
    (alone : ¬tree.disk.HasFolder m.path ("@" ++ key)) :
    ∃ inner, (tree.memberEntities m).get? key = some (.module inner) ∧
      inner.path = PathText.join m.path key := by
  obtain ⟨-, -, names, listed⟩ := exists_list_of_moduleDoc? there
  have inside := Disk.mem_of_hasFolder listed folder
  have entries := Disk.isEntryName_of_list proper listed
  have entry := entries key inside
  have below := (Disk.hasFolder_iff listed entry).mp folder
  obtain ⟨-, -, -, inner, found, joined⟩ | ⟨away, -⟩ :=
    moduleDoc?_joinName there plain entry.whole (absurd · entry.filled)
  case inr => exact absurd (away folder) (by simp [entry.filled, free])
  refine ⟨inner, ?_, joined⟩
  rw [get?_memberEntities listed]
  have here : tree.memberUnder m key key = some (.module inner) := by
    have shown : ∀ r, key.toList ≠ '.' :: r := fun r chars => plain (by simp [chars])
    have free' : ∀ r, key.toList ≠ '@' :: r := fun r chars => free (by simp [IsMarked, chars])
    rw [memberUnder_eq_some]
    simp [memberEntity, below, found]
  -- Files that are named after the folder come later, since their names are longer.
  refine findSome?_of_first (Disk.pairwise_of_list listed) inside here fun other member counts => ?_
  obtain ⟨e, under⟩ := Option.isSome_iff_exists.mp counts
  rcases memberEntity_eq_some (entries other member) (memberUnder_eq_some.mp under) with
    ⟨_, _, rfl, _⟩ | ⟨_, rfl, marked⟩ | ⟨_, _, _, extension, rfl⟩
  · exact String.le_refl _
  · exact absurd ((Disk.hasFolder_iff listed (entries _ member)).mpr marked) alone
  · rw [String.append_assoc]
    exact le_append _ _

end SourceTree

/-- Folders against modules. A folder in the folder of a module is a member of the module, with its
own path, if and only if there is no `.` in its name; and so is the path of every module among the
members the one that its key leads to. A name with a `.` is cut there again, and leads elsewhere. -/
theorem members_of_folders {tree : SourceTree} (proper : tree.disk.root.Proper) {given : List Item}
    {c : Catalog} (session : Session tree Call.IsFlat [] {} given c) {item : Item} (inside : item ∈ given)
    {m : ModuleDoc} (isModule : item.module? = some m) :
    ∃ t, ((tree.members item).run c).1 = some t ∧
      (∀ d, tree.disk.HasFolder m.path d → ¬IsMarked d → ¬tree.disk.HasFolder m.path ("@" ++ d) →
        ((∃ x inner, t.get? d = some x ∧ x.module? = some inner ∧
          inner.path = PathText.join m.path d) ↔ '.' ∉ d.toList)) ∧
      ∀ key x inner, t.get? key = some x → x.module? = some inner →
        (inner.path = PathText.join m.path key ↔ '.' ∉ key.toList) := by
  obtain ⟨⟨flat, there⟩, t, listed, shown⟩ := session.exists_members proper inside isModule
  have means {key : String} {x : Item} {inner : ModuleDoc} (found : t.get? key = some x)
      (kind : x.module? = some inner) : (tree.memberEntities m).get? key = some (.module inner) := by
    rw [← shown, Table.get?_map, found, Option.map_some, Item.entity_of_module? kind]
  refine ⟨t, listed, fun d folder free alone => ⟨?_, fun plain => ?_⟩, fun key x inner found kind =>
    SourceTree.path_eq_join_iff proper flat there (means found kind)⟩
  · rintro ⟨x, inner, found, kind, path⟩
    exact (SourceTree.path_eq_join_iff proper flat there (means found kind)).mp path
  · obtain ⟨inner, found, path⟩ := SourceTree.get?_of_hasFolder proper there folder plain free alone
    rw [← shown, Table.get?_map] at found
    obtain ⟨x, here, same⟩ := Option.map_eq_some_iff.mp found
    exact ⟨x, inner, here, by rw [Item.module?, same], path⟩

/-- A source tree with the folders `a.b` and `p`: the first is no member of the root, the second
is. -/
theorem members_of_folders_dotted :
    let tree : SourceTree :=
      ⟨{ root := .folder [("a.b", .folder []), ("p", .folder [])] }, { root := "/" }⟩
    let item : Item := ⟨0, .module { name := "", path := "/", doc := none }⟩
    let c := (((Call.module "").run tree).run {}).2
    ∃ t, ((tree.members item).run c).1 = some t ∧
      (¬∃ x inner, t.get? "a.b" = some x ∧ x.module? = some inner ∧ inner.path = "/a.b") ∧
      ∃ x inner, t.get? "p" = some x ∧ x.module? = some inner ∧ inner.path = "/p" := by
  intro tree item c
  have empty : (FileTree.folder []).Proper := .folder _ nofun nofun
  have proper : tree.disk.root.Proper := by
    refine .folder _ ?_ ?_
    · decide
    · simpa using empty
  have session := @Session.ofRoot tree item (by decide +kernel)
  have root : tree.disk.find "/" = .ok tree.disk.root := rfl
  have absent (name : String) (none : tree.disk.root.child? name = none) :
      ¬tree.disk.HasFolder "/" name := by
    rintro ⟨t, inner, found, child, -⟩
    cases root.symm.trans found
    rw [none] at child
    cases child
  obtain ⟨t, listed, folders, -⟩ := members_of_folders proper session List.mem_cons_self rfl
  refine ⟨t, listed, ?_, ?_⟩
  · have cut := folders "a.b" ⟨_, _, root, rfl, rfl⟩ (by simp [IsMarked]) (absent _ rfl)
    exact fun kept => absurd (cut.mp kept) (by decide)
  · have kept := folders "p" ⟨_, _, root, rfl, rfl⟩ (by simp [IsMarked]) (absent _ rfl)
    exact kept.mpr (by decide)

/-- A folder `a.b` that is no member of the root, although no class folder takes its name. -/
theorem dotted_folder_is_no_member :
    let tree : SourceTree := ⟨{ root := .folder [("a.b", .folder [])] }, { root := "/" }⟩
    let item : Item := ⟨0, .module { name := "", path := "/", doc := none }⟩
    let c := (((Call.module "").run tree).run {}).2
    (((Call.module "").run tree).run {}).1 = .one (some item) ∧
      tree.disk.HasFolder "/" "a.b" ∧ ¬tree.disk.HasFolder "/" "@a.b" ∧
      ((tree.members item).run c).1 = some {} := by
  intro tree item c
  have root : tree.disk.find "/" = .ok tree.disk.root := rfl
  refine ⟨by decide +kernel, ⟨_, _, root, rfl, rfl⟩, ?_, by decide +kernel⟩
  rintro ⟨t, inner, found, child, -⟩
  cases root.symm.trans found
  cases child

namespace FileTree

/-- No folder within has a `.` in its name. -/
inductive Undotted : FileTree → Prop
  | file (contents : Bytes) : Undotted (.file contents)
  | folder (entries : List (String × FileTree))
      (names : ∀ e ∈ entries, e.2.isFolder = true → '.' ∉ e.1.toList)
      (inner : ∀ e ∈ entries, Undotted e.2) : Undotted (.folder entries)

theorem Undotted.child? {t inner : FileTree} (undotted : t.Undotted) {name : String}
    (found : t.child? name = some inner) :
    inner.Undotted ∧ (inner.isFolder = true → '.' ∉ name.toList) := by
  have member := mem_of_child? found
  cases undotted with
  | file => cases member
  | folder es names inner => exact ⟨inner _ member, names _ member⟩

end FileTree

namespace SourceTree

variable {tree : SourceTree} {m : ModuleDoc} {key : String}

/-- No folder of the source tree has a `.` in its name. -/
def Undotted (tree : SourceTree) : Prop :=
  ∀ dotted, HasNoSlash dotted → ∀ name, tree.disk.HasFolder (tree.modulePath dotted) name →
    '.' ∉ name.toList

theorem undotted_of_root (root : tree.disk.root.Undotted) : tree.Undotted := by
  rintro dotted - name ⟨t, inner, found, child, folder⟩
  have undotted : t.Undotted := by
    rw [Disk.find] at found
    split at found
    · cases found
    · exact FileTree.follow_keeps (fun _ _ _ outer here => (outer.child? here).1)
        (by simpa using root) found
  exact (undotted.child? child).2 folder

/-- Where no folder has a `.` in its name, no key of a module has one. -/
theorem Undotted.flat_key (undotted : tree.Undotted) (proper : tree.disk.root.Proper)
    (flat : HasNoSlash m.name) (there : tree.moduleDoc? m.name = some m) {e : Entity}
    (found : (tree.memberEntities m).get? key = some e) : '.' ∉ key.toList ∧ HasNoSlash key := by
  have path := (exists_list_of_moduleDoc? there).1
  obtain ⟨names, name, listed, inside, declared⟩ := exists_entry_of_get? found
  have entry := Disk.isEntryName_of_list proper listed name inside
  have folders (folder : tree.disk.isFolder (PathText.join m.path name) = true) : '.' ∉ name.toList := by
    refine undotted m.name flat name ?_
    rw [← path]
    exact (Disk.hasFolder_iff listed entry).mpr folder
  rcases memberEntity_eq_some entry declared with
    ⟨_, _, rfl, _, folder, _⟩ | ⟨_, rfl, folder⟩ | ⟨_, word, _⟩
  · exact ⟨folders folder, entry.whole⟩
  · exact ⟨by simpa using folders folder, by simpa [HasNoSlash] using entry.whole⟩
  · exact ⟨point_not_mem_of_identifier word,
      hasNoSlash_of_isDottedIdentifier (isDottedIdentifier_of_isIdentifier word)⟩

/-- A dotted name that is no module's is looked up among the members of the module before it. -/
theorem run_entity_of_absent (proper : tree.disk.root.Proper) {given : List Item} {c : Catalog}
    (session : Session tree Call.IsFlat [] {} given c) {item : Item} (inside : item ∈ given)
    (isModule : item.module? = some m) (plain : '.' ∉ key.toList) (flat : HasNoSlash key)
    (absent : tree.moduleDoc? (joinName m.name key) = none) :
    ∃ c₁, c.StaysIn c₁ ∧ Clear Key.top c₁ ∧ (tree.entity (joinName m.name key)).run c =
      (tree.get? item (DottedName.withoutMark key)).run c₁ := by
  obtain ⟨⟨outer, there⟩, -⟩ := session.exists_members proper inside isModule
  have valid := (exists_list_of_moduleDoc? there).2.1
  have whole : HasNoSlash (joinName m.name key) := outer.joinName flat
  have after := session.call (.module (joinName m.name key)) whole (by simp [Call.uses])
  have none : ((tree.module (joinName m.name key)).run c).1 = none := by
    simpa [absent] using session.entity_of_module proper whole
  have known : ((tree.module (joinName m.name key)).run c).2.Holds (.module m.name (.found item)) :=
    after.linked.2 item (List.mem_append_left _ inside) m isModule
  refine ⟨((tree.module (joinName m.name key)).run c).2,
    (tree.lasts_module _ c (session.clear proper)).1, after.clear proper, ?_⟩
  simp only [entity, classFolderName_joinName valid plain, run_bind, none,
    DottedName.splitLast_joinName m.name plain, run_module_of_holds known]

theorem withoutMark_of_free (free : ¬IsMarked key) : DottedName.withoutMark key = key := by
  unfold DottedName.withoutMark
  split
  · next r chars => exact absurd (by simp [IsMarked, chars]) free
  · rfl

theorem withoutMark_marked (r : String) : DottedName.withoutMark ("@" ++ r) = r := by
  simp [DottedName.withoutMark]

section Keys

variable {given : List Item} {c : Catalog} {item x : Item}

/-- Once a member was asked for by its key, its dotted name leads to the same item, unless a folder
is in the way. -/
theorem run_entity_of_get? (proper : tree.disk.root.Proper) (undotted : tree.Undotted)
    (session : Session tree Call.IsFlat [] {} given c) (inside : item ∈ given)
    (isModule : item.module? = some m) (found : ((tree.get? item key).run c).1 = some x)
    (free : ¬IsMarked key) (filled : key = "" → m.name ≠ "")
    (folder : tree.disk.HasFolder m.path key → x.module?.isSome) :
    ((tree.entity (joinName m.name key)).run ((tree.get? item key).run c).2).1 = some x := by
  obtain ⟨⟨outer, there⟩, -⟩ := session.exists_members proper inside isModule
  have valid := (exists_list_of_moduleDoc? there).2.1
  have means : (tree.memberEntities m).get? key = some x.entity := by
    rw [← session.entity_of_get? proper inside isModule key, found, Option.map_some]
  obtain ⟨plain, flat⟩ := undotted.flat_key proper outer there means
  have after := session.call (.get item key) trivial (by simpa [Call.uses] using inside)
  rcases kind : x.module? with _ | inner
  · have away : ¬tree.disk.HasFolder m.path key := fun there => by simpa [kind] using folder there
    have absent : tree.moduleDoc? (joinName m.name key) = none := by
      obtain ⟨here, -⟩ | ⟨-, absent⟩ := moduleDoc?_joinName there plain flat filled
      · exact absurd here away
      · exact absent
    obtain ⟨c₁, stays, -, run⟩ := run_entity_of_absent proper after (List.mem_append_left _ inside)
      isModule plain flat absent
    have lasting := (lasts_get? proper item key c (session.clear proper)).2.2 c₁ stays
    show ((tree.entity (joinName m.name key)).run (((Call.get item key).run tree).run c).2).1 = some x
    rw [run, withoutMark_of_free free, lasting, found]
  · rw [Item.entity_of_module? kind] at means
    have same : inner.name = joinName m.name key :=
      congrArg ModuleDoc.name (moduleDoc?_eq_some (hasFolder_of_get? proper means).2.2.2).1
    have known := after.linked.2 x (Session.mem_of_get? found given) inner kind
    rw [same] at known
    simp only [entity, classFolderName_joinName valid plain, run_bind]
    rw [show (tree.module (joinName m.name key)).run ((tree.get? item key).run c).2 = _ from
      run_module_of_holds known]
    rfl

end Keys

end SourceTree

/-- The two ways to a member. Where no folder has a `.` in its name, the dotted name of a member leads
to the same item as its key, whichever is asked first, with three exceptions that come of how names
are read: a folder is found before a class folder that takes its key, a mark at the beginning of the
last part is dropped, and the empty name is that of the root. -/
theorem entity_of_member {tree : SourceTree} (proper : tree.disk.root.Proper) (undotted : tree.Undotted)
    {given : List Item} {c : Catalog} (session : Session tree Call.IsFlat [] {} given c) {item : Item}
    (inside : item ∈ given) {m : ModuleDoc} (isModule : item.module? = some m) {key : String} {x : Item}
    (found : ((tree.get? item key).run c).1 = some x) :
    let byKey := tree.get? item key
    let byName := tree.entity (joinName m.name key)
    (¬IsMarked key → (key = "" → m.name ≠ "") → (tree.disk.HasFolder m.path key → x.module?.isSome) →
      (byName.run (byKey.run c).2).1 = some x ∧ (byKey.run (byName.run c).2).1 = (byName.run c).1) ∧
    (tree.disk.HasFolder m.path key → ¬IsMarked key → ∃ y inner, (byName.run c).1 = some y ∧
      y.module? = some inner ∧ inner.path = PathText.join m.path key) ∧
    (∀ r, key = "@" ++ r → ((tree.get? item r).run (byName.run c).2).1 = (byName.run c).1) ∧
    (key = "" → m.name = "" → (byName.run c).1 = some item) := by
  intro byKey byName
  obtain ⟨⟨outer, there⟩, -⟩ := session.exists_members proper inside isModule
  have valid := (SourceTree.exists_list_of_moduleDoc? there).2.1
  have means : (tree.memberEntities m).get? key = some x.entity := by
    rw [← session.entity_of_get? proper inside isModule key, found, Option.map_some]
  obtain ⟨plain, flat⟩ := undotted.flat_key proper outer there means
  have whole := outer.joinName flat
  refine ⟨fun free filled folder => ⟨?_, ?_⟩, fun folder free => ?_, ?_, ?_⟩
  · exact SourceTree.run_entity_of_get? proper undotted session inside isModule found free filled folder
  · -- The dotted name leads to the same item again after the key was asked for.
    have after := session.call (.entity (joinName m.name key)) whole (by simp [Call.uses])
    have inside' := List.mem_append_left
      (((Call.entity (joinName m.name key)).run tree).run c).1.items inside
    have again : (byKey.run (byName.run c).2).1.map Item.entity = some x.entity := by
      rw [← means]
      exact after.entity_of_get? proper inside' isModule key
    obtain ⟨x', found', entity⟩ := Option.map_eq_some_iff.mp again
    have folder' : tree.disk.HasFolder m.path key → x'.module?.isSome := by
      rw [Item.isSome_module?, entity, ← Item.isSome_module?]
      exact folder
    have second := SourceTree.run_entity_of_get? proper undotted after inside' isModule found' free
      filled folder'
    have stays := (SourceTree.lasts_get? proper item key _ (after.clear proper)).1
    have lasting := (SourceTree.lasts_entity proper (joinName m.name key) c (session.clear proper)).2.2 _ stays
    have same := congrArg Prod.fst lasting
    rw [found', ← second]
    exact same
  · have filled := (SourceTree.isEntryName_of_hasFolder proper there folder).filled
    obtain ⟨-, -, -, inner, isInner, path⟩ | ⟨away, -⟩ :=
      SourceTree.moduleDoc?_joinName there plain flat (absurd · filled)
    · have entity : (byName.run c).1.map Item.entity = some (.module inner) := by
        rw [session.entity_of_entity proper whole]
        simp [SourceTree.entityNamed, SourceTree.classFolderName_joinName valid plain, isInner]
      obtain ⟨y, answer, same⟩ := Option.map_eq_some_iff.mp entity
      exact ⟨y, inner, answer, by rw [Item.module?, same], path⟩
    · exact absurd (away folder) (by simp [filled, free])
  · rintro r rfl
    have marked : IsMarked ("@" ++ r) := by simp [IsMarked]
    obtain ⟨-, -, free, -⟩ | ⟨-, absent⟩ := SourceTree.moduleDoc?_joinName there plain flat (by simp)
    · exact absurd marked free
    · obtain ⟨c₁, -, clear, run⟩ :=
        SourceTree.run_entity_of_absent proper session inside isModule plain flat absent
      rw [SourceTree.withoutMark_marked] at run
      have lasting := (SourceTree.lasts_get? proper item r c₁ clear).2.2 _ (.refl _)
      rw [show byName.run c = _ from run, lasting]
  · rintro rfl root
    have known : c.Holds (.module "" (.found item)) := root ▸ session.linked.2 item inside m isModule
    have name : joinName m.name "" = "" := by rw [root]; rfl
    have same : DottedName.classFolderName "" = "" := by decide
    simp only [byName, name, SourceTree.entity, same, run_bind, SourceTree.run_module_of_holds known]
    rfl

/-- A function in the root of a source tree, by its key and by its name. -/
theorem entity_of_member_function :
    let source := "function f\nend\n".toList.map fun c => UInt8.ofNat c.toNat
    let tree : SourceTree := ⟨{ root := .folder [("f.m", .file source)] }, { root := "/" }⟩
    let item : Item := ⟨0, .module { name := "", path := "/", doc := none }⟩
    let c := (((Call.module "").run tree).run {}).2
    ∃ x, ((tree.get? item "f").run c).1 = some x ∧
      ((tree.entity "f").run ((tree.get? item "f").run c).2).1 = some x := by
  intro source tree item c
  have proper : tree.disk.root.Proper := by
    refine .folder _ ?_ ?_
    · decide
    · simpa using .file source
  have undotted : tree.Undotted := by
    refine SourceTree.undotted_of_root (.folder _ ?_ ?_)
    · simp [FileTree.isFolder]
    · simpa using .file source
  have loaded : (((Call.module "").run tree).run {}).1 = .one (some item) := by decide +kernel
  have answered : ((tree.get? item "f").run c).1.isSome = true := by decide +kernel
  obtain ⟨x, found⟩ := Option.isSome_iff_exists.mp answered
  have away : ¬tree.disk.HasFolder "/" "f" := by
    have root : tree.disk.find "/" = .ok tree.disk.root := rfl
    rintro ⟨t, inner, there, child, -⟩
    cases root.symm.trans there
    cases child
  have agree := (entity_of_member proper undotted (Session.ofRoot loaded) List.mem_cons_self rfl found).1
    (by simp [IsMarked]) (by simp) (absurd · away)
  exact ⟨x, found, agree.1⟩

/-- A class folder beside a folder of the same name: the key leads to the constructor in the class
folder, and the name to the other folder. -/
theorem entity_differs_from_member :
    let source := "function f\nend\n".toList.map fun c => UInt8.ofNat c.toNat
    let tree : SourceTree :=
      ⟨{ root := .folder [("@f", .folder [("f.m", .file source)]), ("f", .folder [])] }, { root := "/" }⟩
    let item : Item := ⟨0, .module { name := "", path := "/", doc := none }⟩
    let c := (((Call.module "").run tree).run {}).2
    let byKey := (tree.get? item "f").run c
    tree.Undotted ∧ (((Call.module "").run tree).run {}).1 = .one (some item) ∧
      byKey.1.isSome = true ∧ ((tree.entity (joinName "" "f")).run byKey.2).1 ≠ byKey.1 := by
  intro source tree item c byKey
  have inner : (FileTree.folder [("f.m", .file source)]).Proper ∧ (FileTree.folder []).Proper :=
    ⟨.folder _ (by decide) (by simpa using .file source), .folder _ nofun nofun⟩
  have proper : tree.disk.root.Proper := .folder _ (by decide) (by simpa using inner)
  have undotted : tree.Undotted := by
    refine SourceTree.undotted_of_root (.folder _ (by simp) ?_)
    simpa using ⟨.folder _ (by simp [FileTree.isFolder]) (by simpa using .file source),
      .folder _ nofun nofun⟩
  have loaded : (((Call.module "").run tree).run {}).1 = .one (some item) := by decide +kernel
  have session : Session tree Call.IsFlat [] {} [item] c := .ofRoot loaded
  have listed : tree.disk.list "/" = .ok ["@f", "f"] := by
    show Except.ok (List.mergeSort ["@f", "f"] fun a b => decide (a ≤ b)) = _
    rw [List.mergeSort_of_pairwise (by decide)]
  have key : byKey.1.map (·.entity.isModule) = some false := by
    have first : (["@f", "f"].findSome? (tree.memberUnder ⟨"", "/", none⟩ "f")).map Entity.isModule =
        some false := by decide +kernel
    rw [← SourceTree.get?_memberEntities listed,
      ← session.entity_of_get? proper List.mem_cons_self rfl "f", Option.map_map] at first
    exact first
  have name : ((tree.entity "f").run byKey.2).1.map (·.entity.isModule) = some true := by
    have folder : (tree.entityNamed "f").map Entity.isModule = some true := by decide +kernel
    have after := session.call (.get item "f") trivial (by simp [Call.uses])
    have flat : HasNoSlash "f" := by simp [HasNoSlash]
    rw [← after.entity_of_entity proper flat, Option.map_map] at folder
    exact folder
  refine ⟨undotted, loaded, ?_, fun same => ?_⟩
  · obtain ⟨x, found, -⟩ := Option.map_eq_some_iff.mp key
    rw [found]
    rfl
  · rw [show joinName "" "f" = "f" from rfl] at same
    rw [same, key] at name
    cases name

end MatlabOutline
