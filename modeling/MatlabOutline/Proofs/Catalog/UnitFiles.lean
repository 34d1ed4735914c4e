import MatlabOutline.Proofs.Catalog.Members

/-!
The file of a unit in the folder of a module, and the member that it is.
-/

namespace MatlabOutline

namespace PathText

theorem cutExtension_append {stem extension : List Char} (filled : stem ≠ [])
    (plain : '.' ∉ extension) : cutExtension (stem ++ '.' :: extension) = (stem, some extension) := by
  have parts : (Text.splitAt '.' (stem ++ '.' :: extension)).reverse =
      extension :: (Text.splitAt '.' stem).reverse := by
    rw [Text.splitAt_mark, Text.splitAt_of_not_mem plain, List.reverse_concat]
  rcases cut : (Text.splitAt '.' stem).reverse with _ | ⟨before, more⟩
  · exact absurd (List.reverse_eq_nil_iff.mp cut) (Text.splitAt_ne_nil '.' stem)
  · have whole : Text.joinWith '.' (before :: more).reverse = stem := by
      rw [← cut, List.reverse_reverse, Text.joinWith_splitAt]
    simp only [cutExtension, parts, cut, whole]
    simp [filled]

/-- A file is called by its stem, and its extension comes behind. -/
theorem stem?_join {stem extension : String} (entry : IsEntryName (stem ++ "." ++ extension))
    (filled : stem ≠ "") (plain : '.' ∉ extension.toList) (path : String) :
    stem? (join path (stem ++ "." ++ extension)) = some stem ∧
      extension? (join path (stem ++ "." ++ extension)) = some extension := by
  have cut := cutExtension_append (by simpa using filled : stem.toList ≠ []) plain
  have chars : (stem ++ "." ++ extension).toList = stem.toList ++ '.' :: extension.toList := by simp
  simp only [stem?, extension?, fileName?_join entry, chars, Option.map_some, Option.bind_some, cut,
    String.ofList_toList, and_self]

end PathText

namespace Disk

variable {disk : Disk} {path : String}

theorem isFolder_of_isFile (file : disk.isFile path = true) : disk.isFolder path = false := by
  unfold isFile at file
  unfold isFolder
  split at file
  · simpa using file
  · cases file

/-- What is listed in a folder is a folder or a file. -/
theorem isFile_of_list {names : List String} (listed : disk.list path = .ok names) {name : String}
    (inside : name ∈ names) (entry : IsEntryName name)
    (away : disk.isFolder (PathText.join path name) = false) :
    disk.isFile (PathText.join path name) = true := by
  obtain ⟨t, found, folder, rfl⟩ := exists_find_of_list listed
  rw [isFolder, find_join entry found folder] at away
  rw [isFile, find_join entry found folder]
  cases child : t.child? name with
  | none =>
    rw [FileTree.names, List.mem_mergeSort] at inside
    obtain ⟨e, member, rfl⟩ := List.mem_map.mp inside
    have absent := List.lookup_eq_none_iff.mp child e member
    simp at absent
  | some inner => simpa [child] using away

/-- A file in a folder is listed there. -/
theorem mem_of_isFile {names : List String} (listed : disk.list path = .ok names) {name : String}
    (entry : IsEntryName name) (file : disk.isFile (PathText.join path name) = true) : name ∈ names := by
  obtain ⟨t, found, folder, rfl⟩ := exists_find_of_list listed
  rw [isFile, find_join entry found folder] at file
  cases child : t.child? name with
  | none => simp [child] at file
  | some inner =>
    rw [FileTree.names, List.mem_mergeSort]
    exact List.mem_map_of_mem (FileTree.mem_of_child? child)

theorem placeOf_normal (disk : Disk) (path : String) :
    disk.placeOf (PathText.normal path) = disk.placeOf path := by
  rw [placeOf_eq, placeOf_eq, way_normal]

end Disk

namespace SourceTree

variable {tree : SourceTree} {dotted : String}

theorem IsSource.placeOf_injective {dotted' : String} {below below' : List String}
    (source : IsSource dotted below) (source' : IsSource dotted' below')
    (same : tree.disk.placeOf (tree.sourcePath dotted below) =
      tree.disk.placeOf (tree.sourcePath dotted' below')) : dotted = dotted' ∧ below = below' := by
  rw [← Disk.placeOf_normal, ← Disk.placeOf_normal tree.disk (tree.sourcePath dotted' below')] at same
  exact source.eq_of_placeOf source' same

/-- The name of a file that can be a member of a module. -/
def unitFile (name : String) : String :=
  name ++ ".m"

/-- The path of the file of a unit in a module. -/
def unitPath (tree : SourceTree) (dotted name : String) : String :=
  PathText.join (tree.modulePath dotted) (unitFile name)

/-- An identifier that names a member, and not the documentation of the folder. -/
structure IsUnitName (name : String) : Prop where
  word : isIdentifier name = true
  other : name ≠ "Contents"

section IsUnitName

variable {name : String} (unit : IsUnitName name)

include unit

theorem IsUnitName.flat : HasNoSlash name :=
  hasNoSlash_of_isDottedIdentifier (isDottedIdentifier_of_isIdentifier unit.word)

theorem IsUnitName.filled : name ≠ "" := by
  rintro rfl
  exact absurd unit.word (by decide)

theorem IsUnitName.isEntryName : IsEntryName (unitFile name) :=
  isEntryName_classFile unit.flat

theorem IsUnitName.not_isMarked : ¬IsMarked (unitFile name) := by
  intro marked
  obtain ⟨c, cs, chars⟩ := List.exists_cons_of_ne_nil (by simpa using unit.filled : name.toList ≠ [])
  have word := unit.word
  simp [IsMarked, unitFile, chars] at marked
  simp [isIdentifier, isIdentifierChars, chars, marked, isIdentStart] at word

theorem IsUnitName.isSource (flat : HasNoSlash dotted) (valid : isModuleName dotted = true) :
    IsSource dotted [unitFile name] :=
  ⟨flat, valid, by simpa using unit.isEntryName, .inl ⟨_, rfl⟩⟩

theorem IsUnitName.unitFile_ne : unitFile name ≠ contentsFile := by
  intro same
  have chars : name.toList ++ ['.', 'm'] = "Contents".toList ++ ['.', 'm'] := by
    simpa [unitFile, contentsFile] using congrArg String.toList same
  exact unit.other (String.toList_inj.mp (List.append_cancel_right chars))

theorem IsUnitName.stem?_join (path : String) :
    PathText.stem? (PathText.join path (unitFile name)) = some name ∧
      PathText.extension? (PathText.join path (unitFile name)) = some "m" := by
  have called : unitFile name = name ++ "." ++ "m" := by
    rw [unitFile, String.append_assoc]
    rfl
  rw [called]
  exact PathText.stem?_join (called ▸ unit.isEntryName) unit.filled (by decide) path

/-- The file of a unit is a member under the name of the unit. -/
theorem member_unitFile {m : ModuleDoc}
    (folder : tree.disk.isFolder (PathText.join m.path (unitFile name)) = false) :
    let path := PathText.join m.path (unitFile name)
    tree.member m (unitFile name) = (do return some (name, ← tree.file path m.name)) ∧
      tree.memberEntity m (unitFile name) = some (name, tree.fileEntity path m.name) := by
  have cut := unit.stem?_join m.path
  have shown : ∀ r, (unitFile name).toList ≠ '.' :: r := by
    obtain ⟨c, cs, chars⟩ := List.exists_cons_of_ne_nil (by simpa using unit.filled : name.toList ≠ [])
    have point := point_not_mem_of_identifier unit.word
    rintro r dotted
    simp [unitFile, chars] at dotted
    simp [chars, dotted.1] at point
  constructor
  · simp [member, folder, unit.unitFile_ne, cut, unit.word]
  · simp [memberEntity, folder, unit.unitFile_ne, cut, unit.word]

end IsUnitName

/-- What a file adds to a module is under the name before its extension. -/
theorem memberEntity_of_file {m : ModuleDoc} {entry key : String} {e : Option Entity}
    (named : IsEntryName entry) (file : tree.disk.isFolder (PathText.join m.path entry) = false)
    (found : tree.memberEntity m entry = some (key, e)) :
    e = tree.fileEntity (PathText.join m.path entry) m.name ∧
      (entry = unitFile key ∨ entry = key ++ ".mlapp") := by
  unfold memberEntity at found
  dsimp only at found
  rw [file] at found
  split at found
  · cases found
  · simp only [Bool.false_eq_true, if_false] at found
    split at found
    · cases found
    split at found
    · next kind =>
      cases found
      refine ⟨rfl, ?_⟩
      rcases (Bool.or_eq_true _ _).mp ((Bool.and_eq_true _ _).mp kind).2 with plain | application
      · have called := PathText.eq_of_extension? named (by simpa using plain)
        rw [String.append_assoc] at called
        exact .inl called
      · have called := PathText.eq_of_extension? named (by simpa using application)
        rw [String.append_assoc] at called
        exact .inr called
    · cases found

/-- Nothing but the file of the unit can be a member of its name. -/
structure IsAlone (tree : SourceTree) (dotted name : String) : Prop where
  file : tree.disk.isFile (tree.unitPath dotted name) = true
  folder : tree.disk.isFolder (PathText.join (tree.modulePath dotted) name) = false
  classFolder : tree.disk.isFolder (PathText.join (tree.modulePath dotted) ("@" ++ name)) = false
  application : tree.disk.isFile (PathText.join (tree.modulePath dotted) (name ++ ".mlapp")) = false

theorem IsAlone.get?_memberEntities {m : ModuleDoc} {name : String} {e : Entity}
    (alone : tree.IsAlone m.name name) (proper : tree.disk.root.Proper)
    (there : tree.moduleDoc? m.name = some m) (found : (tree.memberEntities m).get? name = some e) :
    tree.fileEntity (tree.unitPath m.name name) m.name = some e := by
  obtain ⟨path, -⟩ := exists_list_of_moduleDoc? there
  obtain ⟨names, entry, listed, inside, declared⟩ := exists_entry_of_get? found
  have named := Disk.isEntryName_of_list proper listed entry inside
  rw [unitPath, ← path]
  rcases memberEntity_eq_some named declared with
    ⟨inner, -, rfl, -, folder, -⟩ | ⟨-, rfl, folder⟩ | ⟨-, -, file, -⟩
  · rw [path, alone.folder] at folder
    cases folder
  · rw [path, alone.classFolder] at folder
    cases folder
  · obtain ⟨same, rfl | rfl⟩ := memberEntity_of_file named file declared
    · exact same.symm
    · have there := Disk.isFile_of_list listed inside named file
      rw [path, alone.application] at there
      cases there

end SourceTree

end MatlabOutline
