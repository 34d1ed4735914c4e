import MatlabOutline.Proofs.Catalog.Meaning

/-!
Sources: the files and class folders that lookups read, each named by a module and by what stands
below its folder. Their paths tell them apart, in every spelling and on the disk.
-/

namespace MatlabOutline

section HasNoSlash

theorem hasNoSlash_ofSegments {parts : List (List Char)} (flat : ∀ part ∈ parts, '/' ∉ part) :
    HasNoSlash (DottedName.ofSegments parts) := by
  rw [HasNoSlash, DottedName.ofSegments, String.toList_ofList]
  intro slash
  rcases Text.mem_joinWith slash with point | ⟨part, inside, here⟩
  · cases point
  · exact flat part inside here

theorem HasNoSlash.segments {dotted : String} (flat : HasNoSlash dotted) :
    ∀ part ∈ DottedName.segments dotted, '/' ∉ part :=
  fun _ inside slash => flat (Text.mem_of_mem_splitAt inside slash)

theorem HasNoSlash.classFolderName {name : String} (flat : HasNoSlash name) :
    HasNoSlash (DottedName.classFolderName name) :=
  hasNoSlash_ofSegments fun part inside =>
    flat.segments part ((DottedName.dropClassFile_isPrefix _).subset inside)

theorem HasNoSlash.splitLast {name : String} (flat : HasNoSlash name) :
    HasNoSlash (DottedName.splitLast name).1 := by
  unfold DottedName.splitLast
  split
  · next last outer cut =>
    refine hasNoSlash_ofSegments fun part inside => flat.segments part ?_
    rw [← List.mem_reverse, cut]
    exact List.mem_cons_of_mem _ (List.mem_reverse.mp inside)
  · exact List.not_mem_nil

theorem HasNoSlash.packageName {outer : String} (flat : HasNoSlash outer) {packages : List String}
    (flats : ∀ package ∈ packages, HasNoSlash package) :
    HasNoSlash (SourceTree.packageName outer packages) := by
  unfold SourceTree.packageName
  induction packages generalizing outer with
  | nil => exact flat
  | cons package r ih =>
    have first : HasNoSlash ("+" ++ package) := by
      simpa [HasNoSlash] using flats package List.mem_cons_self
    exact ih (flat.joinName first) fun p inside => flats p (List.mem_cons_of_mem package inside)

theorem hasNoSlash_of_isDottedIdentifier {name : String} (dotted : isDottedIdentifier name = true) :
    HasNoSlash name := by
  rw [isDottedIdentifier_eq, isDottedChars] at dotted
  have chars := isIdentRest_of_splitAt (List.all_eq_true.mpr fun part member =>
    all_isIdentRest_of_identifier (List.all_eq_true.mp dotted part member))
  intro slash
  rcases chars '/' slash with point | rest
  · cases point
  · exact absurd rest (by decide)

end HasNoSlash

theorem DottedName.trail_injective {a b : String} (same : trail a = trail b) : a = b := by
  have filled (text : String) : (segments text).map String.ofList ≠ [] := by
    simpa [segments] using Text.splitAt_ne_nil '.' text.toList
  unfold trail at same
  split at same <;> split at same
  · simp_all
  · exact absurd same.symm (filled b)
  · exact absurd same (filled a)
  · have parts : segments a = segments b :=
      List.map_injective_iff.mpr (fun x y h => by simpa using congrArg String.toList h) same
    have chars := congrArg (Text.joinWith '.') parts
    simp only [segments, Text.joinWith_splitAt] at chars
    exact String.toList_inj.mp chars

namespace PathText

theorem steps_foldl_join {names : List String} (entries : ∀ name ∈ names, IsEntryName name)
    (path : String) : steps (names.foldl join path) = steps path ++ names.map String.toList := by
  induction names generalizing path with
  | nil => simp
  | cons name r ih =>
    rw [List.foldl_cons, ih (fun n member => entries n (List.mem_cons_of_mem name member)),
      steps_join (entries name List.mem_cons_self), List.append_assoc]
    rfl

theorem fileName?_join {name : String} (entry : IsEntryName name) (path : String) :
    fileName? (join path name) = some name.toList := by
  have last : ((parts (join path name)).filter (· != ['.'])).getLast? = some name.toList := by
    rw [← steps, steps_join entry, List.getLast?_concat]
  have above : name.toList ≠ ['.', '.'] := fun chars =>
    entry.notAbove (String.toList_inj.mp chars)
  simp only [fileName?, last, if_neg above]

theorem cutExtension_cases (name : List Char) :
    cutExtension name = (name, none) ∨
      ∃ stem extension, cutExtension name = (stem, some extension) ∧ name = stem ++ '.' :: extension := by
  unfold cutExtension
  split
  · next last before more cut =>
    dsimp only
    split
    · exact .inl rfl
    · have parts : Text.splitAt '.' name = (before :: more).reverse ++ [last] := by
        rw [← List.reverse_cons, ← cut, List.reverse_reverse]
      have whole := Text.joinWith_splitAt '.' name
      rw [parts, Text.joinWith_concat '.' (by simp)] at whole
      exact .inr ⟨_, _, rfl, whole.symm⟩
  · exact .inl rfl

theorem cutExtension_isPrefix (name : List Char) : (cutExtension name).1 <+: name := by
  rcases cutExtension_cases name with whole | ⟨stem, extension, cut, chars⟩
  · exact ⟨[], by simp [whole]⟩
  · rw [cut]
    exact ⟨_, chars.symm⟩

theorem isAbsolute_normal (path : String) :
    (normal path).toList.head? = some '/' ↔ path.toList.head? = some '/' := by
  have other (relative : ∀ r, path.toList ≠ '/' :: r) : path.toList.head? ≠ some '/' := fun first => by
    obtain ⟨r, chars⟩ := List.head?_eq_some_iff.mp first
    exact relative r chars
  unfold normal
  split
  · next r absolute => simp [absolute]
  · next dot relative => simpa using other relative
  · next relative _ =>
    have plain : (Text.joinWith '/' (steps path)).head? ≠ some '/' := by
      intro first
      have inside : ∀ part ∈ steps path, '/' ∉ part := fun _ => slash_not_mem_steps
      have filled : ∀ part ∈ steps path, part ≠ [] := fun part member => by
        simpa using (List.mem_filter.mp (List.mem_of_mem_filter member)).2
      generalize steps path = ps at *
      rcases ps with _ | ⟨p, ps⟩
      · simp [Text.joinWith] at first
      · obtain ⟨c, r, rfl⟩ := List.exists_cons_of_ne_nil (filled p List.mem_cons_self)
        refine inside _ List.mem_cons_self ?_
        cases ps <;> simp_all [Text.joinWith, List.intercalate]
    rw [String.toList_ofList]
    exact iff_of_false plain (other relative)

end PathText

namespace Disk

theorem placeFrom_filter (gone parts : List String) :
    placeFrom gone (parts.filter (¬FileTree.IsIdle ·)) = placeFrom gone parts := by
  induction parts generalizing gone with
  | nil => rfl
  | cons part r ih =>
    by_cases idle : FileTree.IsIdle part
    · rw [List.filter_cons_of_neg (by simpa using idle), ih, placeFrom,
        if_pos (by simpa [FileTree.IsIdle] using idle)]
    · have busy : ¬(part.isEmpty || decide (part = ".")) = true := by
        simpa [FileTree.IsIdle] using idle
      rw [List.filter_cons_of_pos (by simpa using idle), placeFrom, placeFrom, if_neg busy,
        if_neg busy, ih, ih]

/-- Names at the end of a path are the end of the way to its place. -/
theorem placeFrom_append {names : List String} (entries : ∀ name ∈ names, IsEntryName name)
    (gone parts : List String) :
    placeFrom gone (parts ++ names) = placeFrom gone parts ++ names := by
  induction parts generalizing gone with
  | nil =>
    rw [List.nil_append]
    induction names generalizing gone with
    | nil => simp
    | cons name r ih =>
      have entry := entries name List.mem_cons_self
      have down : placeFrom gone (name :: r) = placeFrom (name :: gone) r := by
        rw [placeFrom, if_neg (by simp [entry.filled, entry.notHere]), if_neg entry.notAbove]
      rw [down, ih (fun n member => entries n (List.mem_cons_of_mem name member))]
      simp [placeFrom]
  | cons part r ih =>
    rw [List.cons_append, placeFrom, placeFrom]
    split
    · exact ih gone
    · split
      · exact ih gone.tail
      · exact ih (part :: gone)

theorem placeOf_eq (disk : Disk) (path : String) : disk.placeOf path = placeFrom [] (disk.way path) :=
  (placeFrom_filter [] _).symm

theorem way_normal (disk : Disk) (path : String) : disk.way (PathText.normal path) = disk.way path := by
  rw [way_eq, way_eq, PathText.steps_normal]
  simp only [PathText.isAbsolute_normal]

end Disk

/-- Marked as the name of a class folder. -/
def IsMarked (name : String) : Prop :=
  name.toList.head? = some '@'

/-- A file that is named by an identifier is not marked. -/
theorem not_isMarked_of_stem {path name : String} (entry : IsEntryName name)
    (word : isIdentifier ((PathText.stem? (PathText.join path name)).getD "") = true) :
    ¬IsMarked name := by
  intro marked
  obtain ⟨r, chars⟩ := List.head?_eq_some_iff.mp marked
  have front := PathText.cutExtension_isPrefix name.toList
  rw [PathText.stem?, PathText.fileName?_join entry, Option.map_some, Option.getD_some, isIdentifier,
    String.toList_ofList] at word
  rcases stem : (PathText.cutExtension name.toList).1 with _ | ⟨c, cs⟩
  · simp [stem, isIdentifierChars] at word
  · rw [stem, chars, List.cons_prefix_cons] at front
    rw [stem, front.1, isIdentifierChars] at word
    simp [isIdentStart] at word

namespace SourceTree

variable {tree : SourceTree}

theorem not_isMarked_of_mem_trail {dotted name : String} (valid : isModuleName dotted = true)
    (member : name ∈ DottedName.trail dotted) : ¬IsMarked name := by
  unfold DottedName.trail at member
  split at member
  · cases member
  next filled =>
  obtain ⟨part, inside, rfl⟩ := List.mem_map.mp member
  rw [isModuleName, Bool.or_eq_true, List.all_eq_true] at valid
  have named := (Bool.and_eq_true _ _).mp (valid.resolve_left filled part inside)
  simpa [IsMarked] using named.2

/-- Something that lookups read: in the folder of a module, or in a class folder there. -/
structure IsSource (dotted : String) (below : List String) : Prop where
  flat : HasNoSlash dotted
  valid : isModuleName dotted = true
  entries : ∀ name ∈ below, IsEntryName name
  shape : (∃ name, below = [name]) ∨ ∃ folder name, below = [folder, name] ∧ IsMarked folder

def sourcePath (tree : SourceTree) (dotted : String) (below : List String) : String :=
  below.foldl PathText.join (tree.modulePath dotted)

/-- The names from the root of the source tree to a source tell it from all others. -/
theorem IsSource.eq_of_trail {dotted dotted' : String} {below below' : List String}
    (source : IsSource dotted below) (source' : IsSource dotted' below')
    (same : DottedName.trail dotted ++ below = DottedName.trail dotted' ++ below') :
    dotted = dotted' ∧ below = below' := by
  have apart {d d' folder name : String} (valid : isModuleName d = true) (marked : IsMarked folder)
      {last : String} : DottedName.trail d ++ [last] ≠ DottedName.trail d' ++ [folder, name] := by
    intro equal
    have cut : DottedName.trail d' ++ [folder, name] = (DottedName.trail d' ++ [folder]) ++ [name] := by
      simp
    rw [cut] at equal
    have front := (List.append_inj' equal rfl).1
    exact not_isMarked_of_mem_trail valid (front ▸ by simp) marked
  have finish (length : below.length = below'.length) : dotted = dotted' ∧ below = below' := by
    obtain ⟨front, back⟩ := List.append_inj' same length
    exact ⟨DottedName.trail_injective front, back⟩
  rcases source.shape with ⟨name, rfl⟩ | ⟨folder, name, rfl, marked⟩ <;>
    rcases source'.shape with ⟨name', rfl⟩ | ⟨folder', name', rfl, marked'⟩
  · exact finish rfl
  · exact absurd same (apart source.valid marked')
  · exact absurd same.symm (apart source'.valid marked)
  · exact finish rfl

theorem IsSource.isEntryName {dotted : String} {below : List String} (source : IsSource dotted below) :
    ∀ name ∈ DottedName.trail dotted ++ below, IsEntryName name := by
  intro name member
  rcases List.mem_append.mp member with inside | last
  · exact isEntryName_of_mem_trail source.flat source.valid inside
  · exact source.entries name last

theorem sourcePath_eq (tree : SourceTree) (dotted : String) (below : List String) :
    tree.sourcePath dotted below =
      (DottedName.trail dotted ++ below).foldl PathText.join tree.settings.root := by
  rw [sourcePath, modulePath_eq, List.foldl_append]

/-- No two sources have a spelling in common. -/
theorem IsSource.eq_of_normal {dotted dotted' : String} {below below' : List String}
    (source : IsSource dotted below) (source' : IsSource dotted' below')
    (same : PathText.normal (tree.sourcePath dotted below) =
      PathText.normal (tree.sourcePath dotted' below')) : dotted = dotted' ∧ below = below' := by
  have steps := PathText.steps_eq_of_normal same
  rw [sourcePath_eq, sourcePath_eq, PathText.steps_foldl_join source.isEntryName,
    PathText.steps_foldl_join source'.isEntryName, List.append_cancel_left_eq] at steps
  exact source.eq_of_trail source' (List.map_injective_iff.mpr (fun _ _ => String.toList_inj.mp) steps)

/-- The place of a source on the disk. -/
theorem IsSource.placeOf_eq {dotted : String} {below : List String} (source : IsSource dotted below) :
    tree.disk.placeOf (PathText.normal (tree.sourcePath dotted below)) =
      tree.disk.placeOf tree.settings.root ++ (DottedName.trail dotted ++ below) := by
  rw [Disk.placeOf_eq, Disk.way_normal, sourcePath_eq, Disk.way_foldl_join _ source.isEntryName,
    Disk.placeFrom_append source.isEntryName, ← Disk.placeOf_eq]

/-- No two sources stand at the same place on the disk. -/
theorem IsSource.eq_of_placeOf {dotted dotted' : String} {below below' : List String}
    (source : IsSource dotted below) (source' : IsSource dotted' below')
    (same : tree.disk.placeOf (PathText.normal (tree.sourcePath dotted below)) =
      tree.disk.placeOf (PathText.normal (tree.sourcePath dotted' below'))) :
    dotted = dotted' ∧ below = below' := by
  rw [source.placeOf_eq, source'.placeOf_eq, List.append_cancel_left_eq] at same
  exact source.eq_of_trail source' same

end SourceTree

end MatlabOutline
