import MatlabOutline.Proofs.Catalog.OneFile
import MatlabOutline.Proofs.Catalog.UnitFiles

/-!
Members beside one file. Where source trees differ in the contents of that file alone, the members of
modules are the same, up to what the file declares.
-/

namespace MatlabOutline

namespace Table

variable {α : Type}

/-- The table without the value of a name. The others stay in their order. -/
def without (t : Table α) (key : String) : Table α :=
  ⟨t.entries.filter (·.1 ≠ key)⟩

theorem contains_without (t : Table α) {key other : String} (apart : other ≠ key) :
    (t.without key).contains other = t.contains other := by
  obtain ⟨l⟩ := t
  simp only [without, contains, get?]
  congr 1
  induction l with
  | nil => rfl
  | cons e l ih =>
    by_cases dropped : e.1 = key
    · rw [List.filter_cons_of_neg (by simpa using dropped), ih, lookup, if_neg]
      exact fun same => apart (same.symm.trans dropped)
    · rw [List.filter_cons_of_pos (by simpa using dropped), lookup, lookup, ih]

theorem without_insert_self (t : Table α) (key : String) (a : α) :
    (t.insert key a).without key = t.without key := by
  obtain ⟨l⟩ := t
  simp only [without, insert, mk.injEq]
  induction l with
  | nil => simp [put]
  | cons e l ih =>
    rw [put]
    split
    · next same => simp [same]
    · simp only [List.filter_cons, ih]

theorem without_insert (t : Table α) {key other : String} (apart : other ≠ key) (a : α) :
    (t.insert other a).without key = (t.without key).insert other a := by
  obtain ⟨l⟩ := t
  simp only [without, insert, mk.injEq]
  induction l with
  | nil => simp [put, apart]
  | cons e l ih =>
    rw [put]
    by_cases dropped : e.1 = key
    · have away : e.1 ≠ other := fun same => apart (same.symm.trans dropped)
      rw [if_neg away, List.filter_cons_of_neg (by simpa using dropped), ih,
        List.filter_cons_of_neg (by simpa using dropped)]
    · have kept : ((e :: l).filter (·.1 ≠ key)) = e :: l.filter (·.1 ≠ key) :=
        List.filter_cons_of_pos (by simpa using dropped)
      rw [kept, put]
      split
      · next same => simp [dropped]
      · rw [← ih]
        exact List.filter_cons_of_pos (by simpa using dropped)

end Table
namespace SourceTree

variable {tree tree' : SourceTree} {dotted file : String}

namespace DifferIn

variable (differ : tree.DifferIn tree' (tree.sourcePath dotted [file])) (source : IsSource dotted [file])

include differ source

/-- All other files that lookups read declare the same. -/
theorem fileEntity_eq {scope other : String} (isFile : tree.IsFile scope other)
    (away : other ≠ tree.sourcePath dotted [file]) :
    tree'.fileEntity other scope = tree.fileEntity other scope := by
  obtain ⟨below, source', rfl, -⟩ := isFile
  refine differ.fileEntity_of_placeOf (fun same => away ?_) scope
  obtain ⟨rfl, rfl⟩ := source'.placeOf_injective source same
  rfl

/-- A file in a class folder is not the one. -/
theorem fileEntity_inClassFolder {scope folder name : String} (flat : HasNoSlash scope)
    (valid : isModuleName scope = true) (outer : IsEntryName folder) (marked : IsMarked folder)
    (entry : IsEntryName name) :
    let path := PathText.join (PathText.join (tree.modulePath scope) folder) name
    tree'.fileEntity path scope = tree.fileEntity path scope := by
  intro path
  refine differ.fileEntity_eq source (isFile_inClassFolder flat valid outer marked entry) fun same => ?_
  have other : IsSource scope [folder, name] :=
    ⟨flat, valid, by simpa using ⟨outer, entry⟩, .inr ⟨folder, name, rfl, marked⟩⟩
  have below := (other.eq_of_normal source (congrArg PathText.normal same)).2
  simp at below

theorem fileEntity_member {scope name : String} (flat : HasNoSlash scope)
    (valid : isModuleName scope = true) (entry : IsEntryName name) (plain : ¬IsMarked name)
    (away : scope = dotted → name ≠ file) :
    let path := PathText.join (tree.modulePath scope) name
    tree'.fileEntity path scope = tree.fileEntity path scope := by
  intro path
  refine differ.fileEntity_eq source (isFile_member flat valid entry plain) fun same => ?_
  have other : IsSource scope [name] := ⟨flat, valid, by simpa using entry, .inl ⟨name, rfl⟩⟩
  obtain ⟨rfl, below⟩ := other.eq_of_normal source (congrArg PathText.normal same)
  exact away rfl (by simpa using below)

theorem mergedClass_eq {scope folder : String} (flat : HasNoSlash scope)
    (valid : isModuleName scope = true) (outer : IsEntryName folder) (marked : IsMarked folder)
    (c : ClassDoc) (names : List String) (entries : ∀ name ∈ names, IsEntryName name) :
    let path := PathText.join (tree.modulePath scope) folder
    tree'.mergedClass scope c (names.map (PathText.join path)) =
      tree.mergedClass scope c (names.map (PathText.join path)) := by
  intro path
  induction names generalizing c with
  | nil => rfl
  | cons name r ih =>
    have rest (c : ClassDoc) := ih c fun n inside => entries n (List.mem_cons_of_mem name inside)
    have here := differ.fileEntity_inClassFolder source flat valid outer marked
      (entries name List.mem_cons_self)
    simp only [List.map_cons, mergedClass, here, rest, path]

theorem classFolderEntity_eq (proper : tree.disk.root.Proper) {scope folder : String}
    {cls : List Char} (flat : HasNoSlash scope) (valid : isModuleName scope = true)
    (outer : IsEntryName folder) (chars : folder.toList = '@' :: cls) :
    let path := PathText.join (tree.modulePath scope) folder
    tree'.classFolderEntity path (String.ofList cls) scope =
      tree.classFolderEntity path (String.ofList cls) scope := by
  intro path
  have marked : IsMarked folder := by simp [IsMarked, chars]
  have classFile : IsEntryName (String.ofList cls ++ ".m") :=
    isEntryName_classFile (outer.hasNoSlash_tail chars)
  have declared := differ.fileEntity_inClassFolder source flat valid outer marked classFile
  have methods : tree'.isMethodFile = tree.isMethodFile := by
    funext a b
    simp only [isMethodFile, differ.isFile_eq]
  simp only [classFolderEntity, path, declared, differ.list_eq, methods]
  rcases listed : tree.disk.list (PathText.join (tree.modulePath scope) folder) with fault | names
  · rfl
  · have entries := Disk.isEntryName_of_list proper listed
    have merged (c : ClassDoc) (p : String → Bool) := differ.mergedClass_eq source flat valid outer
      marked c (names.filter p) fun name inside => entries name (List.mem_of_mem_filter inside)
    simp only [List.filter_map, merged]

theorem moduleDoc?_eq {scope : String} (flat : HasNoSlash scope) (other : file ≠ contentsFile) :
    tree'.moduleDoc? scope = tree.moduleDoc? scope := by
  simp only [moduleDoc?, differ.modulePath_eq, differ.isFolder_eq]
  split
  · next there =>
    have contents : IsEntryName contentsFile := by decide
    have plain : ¬IsMarked contentsFile := by simp [IsMarked, contentsFile]
    have valid := ((Bool.and_eq_true _ _).mp there).1
    have text := differ.fileEntity_member source flat valid contents plain fun _ => other.symm
    simp only [folderText, differ.isFile_eq, text]
  · rfl

/-- All other entries of modules' folders are the same members. -/
theorem memberEntity_eq (proper : tree.disk.root.Proper) (other : file ≠ contentsFile) {m : ModuleDoc}
    (flat : HasNoSlash m.name) (there : tree.moduleDoc? m.name = some m) {name : String}
    (entry : IsEntryName name) (away : m.name = dotted → name ≠ file) :
    tree'.memberEntity m name = tree.memberEntity m name := by
  obtain ⟨path, valid, -⟩ := exists_list_of_moduleDoc? there
  simp only [memberEntity, differ.isFolder_eq, path]
  split
  · rfl
  · split
    · split
      · next cls chars =>
        rw [differ.classFolderEntity_eq source proper flat valid entry chars]
      · rw [differ.moduleDoc?_eq source (flat.joinName entry.whole) other]
    · split
      · rfl
      · split
        · next word =>
          have plain := not_isMarked_of_stem entry ((Bool.and_eq_true _ _).mp word).1
          rw [differ.fileEntity_member source flat valid entry plain away]
        · rfl

omit differ source in
theorem addEntities_congr {m : ModuleDoc} {names : List String}
    (same : ∀ name ∈ names, tree'.memberEntity m name = tree.memberEntity m name) (t : Table Entity) :
    tree'.addEntities m t names = tree.addEntities m t names := by
  induction names generalizing t with
  | nil => rfl
  | cons name r ih =>
    have rest (t : Table Entity) := ih (fun n inside => same n (List.mem_cons_of_mem name inside)) t
    simp only [addEntities, same name List.mem_cons_self, rest]

omit differ source in
/-- An entry that can only be the member `key` leaves the others as they are. -/
theorem addEntities_without_cons {m : ModuleDoc} {name key : String}
    (own : ∀ k e, tree.memberEntity m name = some (k, e) → k = key) (t : Table Entity) (r : List String) :
    ∃ t', t'.without key = t.without key ∧ tree.addEntities m t (name :: r) = tree.addEntities m t' r := by
  rw [addEntities]
  split
  · next k e found =>
    cases own k _ found
    split
    · exact ⟨t, rfl, rfl⟩
    · exact ⟨_, t.without_insert_self _ e, rfl⟩
  · exact ⟨t, rfl, rfl⟩

omit differ source in
theorem addEntities_without {m : ModuleDoc} {key : String} {names : List String}
    (same : ∀ name ∈ names, tree'.memberEntity m name = tree.memberEntity m name ∨
      (∀ k e, tree.memberEntity m name = some (k, e) → k = key) ∧
      ∀ k e, tree'.memberEntity m name = some (k, e) → k = key)
    {t t' : Table Entity} (alike : t'.without key = t.without key) :
    (tree'.addEntities m t' names).without key = (tree.addEntities m t names).without key := by
  induction names generalizing t t' with
  | nil => exact alike
  | cons name r ih =>
    have rest {t t' : Table Entity} := @ih (fun n inside => same n (List.mem_cons_of_mem name inside)) t t'
    have apart (own : ∀ k e, tree.memberEntity m name = some (k, e) → k = key)
        (own' : ∀ k e, tree'.memberEntity m name = some (k, e) → k = key) :
        (tree'.addEntities m t' (name :: r)).without key =
          (tree.addEntities m t (name :: r)).without key := by
      obtain ⟨s, before, now⟩ := addEntities_without_cons own t r
      obtain ⟨s', before', now'⟩ := addEntities_without_cons own' t' r
      rw [now, now']
      exact rest (before'.trans (alike.trans before.symm))
    rcases same name List.mem_cons_self with equal | ⟨own, own'⟩
    · rcases found : tree.memberEntity m name with _ | ⟨k, _ | e⟩
      · simp only [addEntities, equal, found]
        exact rest alike
      · simp only [addEntities, equal, found]
        exact rest alike
      · by_cases counts : k = key
        · subst counts
          have only : ∀ k' e', some (k, some e) = some (k', e') → k' = k := by
            rintro _ _ ⟨⟩
            rfl
          exact apart (by rwa [found]) (by rwa [equal, found])
        · simp only [addEntities, equal, found]
          have known : t'.contains k = t.contains k := by
            rw [← Table.contains_without t' counts, alike, Table.contains_without t counts]
          rw [known]
          split
          · exact rest alike
          · refine rest ?_
            rw [Table.without_insert _ counts, Table.without_insert _ counts, alike]
    · exact apart own own'

/-- The members of all other modules are the same. -/
theorem memberEntities_eq (proper : tree.disk.root.Proper) (other : file ≠ contentsFile) {m : ModuleDoc}
    (flat : HasNoSlash m.name) (there : tree.moduleDoc? m.name = some m) (away : m.name ≠ dotted) :
    tree'.memberEntities m = tree.memberEntities m := by
  simp only [memberEntities, differ.list_eq]
  rcases listed : tree.disk.list m.path with fault | names
  · rfl
  · refine addEntities_congr (fun name inside => ?_) {}
    exact differ.memberEntity_eq source proper other flat there
      (Disk.isEntryName_of_list proper listed name inside) fun here => absurd here away

/-- The members of the module whose folder the file stands in are the same, and in the same order, but
for the one that is called after the file. -/
theorem memberEntities_without (proper : tree.disk.root.Proper) {m : ModuleDoc}
    (flat : HasNoSlash m.name) (there : tree.moduleDoc? m.name = some m) {name : String}
    (unit : IsUnitName name) (called : file = unitFile name) (here : m.name = dotted) :
    (tree'.memberEntities m).without name = (tree.memberEntities m).without name := by
  have path : m.path = tree.modulePath dotted := here ▸ (exists_list_of_moduleDoc? there).1
  have folder : tree.disk.isFolder (PathText.join m.path file) = false := by
    rw [path]
    exact differ.isFolder_self
  subst called
  simp only [memberEntities, differ.list_eq]
  rcases listed : tree.disk.list m.path with fault | names
  · rfl
  · refine addEntities_without (fun entry inside => ?_) rfl
    by_cases same : entry = unitFile name
    · subst same
      rw [(member_unitFile unit folder).2, (member_unitFile unit (differ.isFolder_eq _ ▸ folder)).2]
      refine .inr ⟨?_, ?_⟩ <;> rintro _ _ ⟨⟩ <;> rfl
    · exact .inl (differ.memberEntity_eq source proper unit.unitFile_ne flat there
        (Disk.isEntryName_of_list proper listed entry inside) fun _ => same)

end DifferIn

end SourceTree

end MatlabOutline
