import MatlabOutline.Proofs.Catalog.Sources

/-!
Folders and the members that they become. Of the entries with one key the first in the order of
names counts, and a folder comes before the files that are named after it.
-/

namespace MatlabOutline

namespace FileTree

variable {above : List FileTree} {here t : FileTree} {parts : List String}

/-- A name at the end of a path leads one folder down. -/
theorem follow_concat {name : String} (entry : IsEntryName name)
    (found : follow above here parts = .ok t) (folder : t.isFolder = true) :
    follow above here (parts ++ [name]) =
      match t.child? name with
      | some child => .ok child
      | none => .error .notFound := by
  induction parts generalizing above here with
  | nil =>
    cases found
    rw [List.nil_append, follow_cons, if_neg (by simp [folder]),
      if_neg (by simp [entry.filled, entry.notHere]), if_neg entry.notAbove]
    cases t.child? name <;> rfl
  | cons part r ih =>
    rw [List.cons_append, follow_cons]
    obtain ⟨open_, ⟨idle, stay⟩ | ⟨rfl, up⟩ | ⟨busy, down, child, inside, later⟩⟩ :=
      follow_cons_cases found
    · rw [if_neg (by simp [open_]), if_pos (by simpa [IsIdle] using idle), ih stay]
    · rw [if_neg (by simp [open_]), if_neg (by decide), if_pos rfl, ih up]
    · rw [if_neg (by simp [open_]), if_neg (by simpa [IsIdle] using busy), if_neg down, inside]
      exact ih later

/-- A `/` at the end of a path asks for a folder. -/
theorem follow_of_concat_empty (found : follow above here (parts ++ [""]) = .ok t) :
    follow above here parts = .ok t := by
  induction parts generalizing above here with
  | nil =>
    obtain ⟨-, ⟨-, stay⟩ | ⟨up, -⟩ | ⟨busy, -⟩⟩ := follow_cons_cases found
    · exact stay
    · simp at up
    · exact absurd (.inl rfl) busy
  | cons part r ih =>
    rw [List.cons_append] at found
    rw [follow_cons]
    obtain ⟨open_, ⟨idle, stay⟩ | ⟨rfl, up⟩ | ⟨busy, down, child, inside, later⟩⟩ :=
      follow_cons_cases found
    · rw [if_neg (by simp [open_]), if_pos (by simpa [IsIdle] using idle), ih stay]
    · rw [if_neg (by simp [open_]), if_neg (by decide), if_pos rfl, ih up]
    · rw [if_neg (by simp [open_]), if_neg (by simpa [IsIdle] using busy), if_neg down, inside]
      exact ih later

end FileTree

namespace Disk

variable {disk : Disk}

/-- A folder called `name` stands in the folder at `path`. -/
def HasFolder (disk : Disk) (path name : String) : Prop :=
  ∃ t inner, disk.find path = .ok t ∧ t.child? name = some inner ∧ inner.isFolder = true

theorem find_join {path name : String} (entry : IsEntryName name) {t : FileTree}
    (found : disk.find path = .ok t) (folder : t.isFolder = true) :
    disk.find (PathText.join path name) =
      match t.child? name with
      | some child => .ok child
      | none => .error .notFound := by
  obtain ⟨lead, cut, shape⟩ := PathText.splitAt_join entry path
  have filled : PathText.join path name ≠ "" := by
    intro none
    rw [none] at cut
    cases lead with
    | nil => exact entry.filled (by simpa [Text.splitAt] using cut)
    | cons => simp [Text.splitAt] at cut
  rw [find] at found ⊢
  rw [if_neg (by simpa using filled)]
  split at found
  · cases found
  next start =>
  have back {outer : List String}
      (along : disk.root.follow [] (outer ++ (Text.splitAt '/' path.toList).map String.ofList) = .ok t) :
      disk.root.follow [] (outer ++ lead.map String.ofList) = .ok t := by
    rcases shape with ⟨rfl, -⟩ | whole | closed
    · exact absurd rfl start
    · rwa [whole] at along
    · rw [closed, List.map_append, ← List.append_assoc] at along
      exact FileTree.follow_of_concat_empty along
  unfold partsOf at found ⊢
  simp only [PathText.isAbsolute_join entry, cut, List.map_append, List.map_singleton,
    String.ofList_toList]
  split at found
  · next absolute =>
    rw [if_pos absolute]
    exact FileTree.follow_concat entry (@back [] found) folder
  · next relative =>
    rw [if_neg relative, ← List.append_assoc]
    exact FileTree.follow_concat entry (back found) folder

theorem exists_find_of_list {path : String} {names : List String}
    (listed : disk.list path = .ok names) :
    ∃ t, disk.find path = .ok t ∧ t.isFolder = true ∧ names = t.names := by
  rw [list] at listed
  split at listed
  · next t found =>
    split at listed
    · next folder =>
      cases listed
      exact ⟨t, found, folder, rfl⟩
    · cases listed
  · cases listed

/-- The folders in a folder are those that longer paths lead to. -/
theorem hasFolder_iff {path name : String} {names : List String}
    (listed : disk.list path = .ok names) (entry : IsEntryName name) :
    disk.HasFolder path name ↔ disk.isFolder (PathText.join path name) = true := by
  obtain ⟨t, found, folder, -⟩ := exists_find_of_list listed
  have below := find_join entry found folder
  rw [isFolder, below]
  constructor
  · rintro ⟨t', inner, found', child, lower⟩
    cases found.symm.trans found'
    simpa [child] using lower
  · intro lower
    cases child : t.child? name with
    | none => simp [child] at lower
    | some inner => exact ⟨t, inner, found, child, by simpa [child] using lower⟩

theorem mem_of_hasFolder {path name : String} {names : List String}
    (listed : disk.list path = .ok names) (there : disk.HasFolder path name) : name ∈ names := by
  obtain ⟨t, found, -, rfl⟩ := exists_find_of_list listed
  obtain ⟨t', inner, found', child, -⟩ := there
  cases found.symm.trans found'
  rw [FileTree.names, List.mem_mergeSort]
  exact List.mem_map_of_mem (FileTree.mem_of_child? child)

/-- Folders are listed in the order of the names. -/
theorem pairwise_of_list {path : String} {names : List String}
    (listed : disk.list path = .ok names) : names.Pairwise (· ≤ ·) := by
  obtain ⟨t, -, -, rfl⟩ := exists_find_of_list listed
  have trans (a b c : String) (first : decide (a ≤ b) = true) (second : decide (b ≤ c) = true) :
      decide (a ≤ c) = true :=
    decide_eq_true (String.le_trans (of_decide_eq_true first) (of_decide_eq_true second))
  have total (a b : String) : (decide (a ≤ b) || decide (b ≤ a)) = true := by
    simpa using String.le_total a b
  have sorted := List.pairwise_mergeSort trans total (t.entries.map Prod.fst)
  simpa [FileTree.names] using sorted

end Disk

namespace DottedName

theorem trail_joinName {scope name : String} (filled : name ≠ "") :
    trail (joinName scope name) = trail scope ++ trail name := by
  unfold joinName
  by_cases empty : scope = ""
  · simp [empty, trail]
  · simp [trail, empty, filled, segments_join]

theorem trail_eq_singleton_iff {name : String} (filled : name ≠ "") :
    trail name = [name] ↔ '.' ∉ name.toList := by
  rw [trail, if_neg (by simpa using filled)]
  constructor
  · intro one point
    have part : name ∈ (segments name).map String.ofList := one ▸ List.mem_cons_self
    obtain ⟨cs, inside, rfl⟩ := List.mem_map.mp part
    exact Text.not_mem_of_mem_splitAt inside (by simpa using point)
  · intro plain
    rw [segments, Text.splitAt_of_not_mem plain]
    simp

theorem ofSegments_segments (dotted : String) : ofSegments (segments dotted) = dotted := by
  rw [ofSegments, segments, Text.joinWith_splitAt, String.ofList_toList]

theorem ofSegments_trail (dotted : String) : ofSegments ((trail dotted).map String.toList) = dotted := by
  unfold trail
  split
  · next empty => simp_all [ofSegments, Text.joinWith]
  · rw [List.map_map]
    simpa [Function.comp_def] using ofSegments_segments dotted

theorem segments_joinName (scope : String) {name : String} (plain : '.' ∉ name.toList) :
    segments (joinName scope name) = (trail scope).map String.toList ++ [name.toList] := by
  have alone : segments name = [name.toList] := Text.splitAt_of_not_mem plain
  unfold joinName trail
  split
  · simp [alone]
  · simp [segments_join, alone, Function.comp_def]

/-- A name without a `.` is one folder further, unless it is empty at the root. -/
theorem trail_joinName_of_plain {scope name : String} (plain : '.' ∉ name.toList)
    (filled : name = "" → scope ≠ "") : trail (joinName scope name) = trail scope ++ [name] := by
  have named : joinName scope name ≠ "" := by
    unfold joinName
    split
    · next empty => exact fun none => filled none (by simpa using empty)
    · intro none
      simpa using congrArg String.toList none
  rw [trail, if_neg (by simpa using named), segments_joinName scope plain]
  simp [Function.comp_def]

theorem splitLast_joinName (scope : String) {name : String} (plain : '.' ∉ name.toList) :
    splitLast (joinName scope name) = (scope, name) := by
  simp only [splitLast, segments_joinName scope plain, List.reverse_concat, List.reverse_reverse,
    ofSegments_trail, String.ofList_toList]

end DottedName

namespace PathText

/-- A file with an extension is called after its stem. -/
theorem eq_of_extension? {name extension : String} (entry : IsEntryName name) {path : String}
    (cut : extension? (join path name) = some extension) :
    name = (stem? (join path name)).getD "" ++ "." ++ extension := by
  rw [extension?, fileName?_join entry, Option.bind_some] at cut
  obtain ⟨cs, last, rfl⟩ := Option.map_eq_some_iff.mp cut
  rw [stem?, fileName?_join entry, Option.map_some, Option.getD_some, ← String.toList_inj]
  rcases cutExtension_cases name.toList with whole | ⟨stem, extension, both, chars⟩
  · simp [whole] at last
  · obtain rfl : extension = cs := by simpa [both] using last
    simpa [both] using chars

end PathText

/-- Where one name alone counts and no other that counts comes before it, it is found first. -/
theorem findSome?_of_first {α : Type} {names : List String} (sorted : names.Pairwise (· ≤ ·))
    {f : String → Option α} {name : String} {a : α} (inside : name ∈ names) (here : f name = some a)
    (others : ∀ other ∈ names, (f other).isSome → name ≤ other) : names.findSome? f = some a := by
  induction names with
  | nil => cases inside
  | cons first r ih =>
    obtain ⟨before, rest⟩ := List.pairwise_cons.mp sorted
    rw [List.findSome?_cons]
    rcases List.mem_cons.mp inside with rfl | later
    · rw [here]
    · rcases early : f first with _ | b
      · exact ih rest later fun other member => others other (List.mem_cons_of_mem first member)
      · have same : name = first := String.le_antisymm
          (others first List.mem_cons_self (by simp [early])) (before name later)
        rw [← here, same, early]

namespace SourceTree

variable {tree : SourceTree} {m : ModuleDoc} {name key : String}

theorem isModuleName_iff (dotted : String) :
    isModuleName dotted = true ↔ ∀ part ∈ DottedName.trail dotted, part ≠ "" ∧ ¬IsMarked part := by
  unfold isModuleName DottedName.trail
  by_cases empty : dotted = ""
  · simp [empty]
  · simp [empty, IsMarked]

theorem isModuleName_joinName_iff {dotted : String} (valid : isModuleName dotted = true)
    (plain : '.' ∉ name.toList) (filled : name = "" → dotted ≠ "") :
    isModuleName (joinName dotted name) = true ↔ name ≠ "" ∧ ¬IsMarked name := by
  rw [isModuleName_iff] at valid ⊢
  rw [DottedName.trail_joinName_of_plain plain filled, List.forall_mem_append]
  simp only [List.forall_mem_singleton, and_iff_right_iff_imp]
  exact fun _ => valid

theorem modulePath_joinName {dotted : String} (plain : '.' ∉ name.toList)
    (filled : name = "" → dotted ≠ "") :
    tree.modulePath (joinName dotted name) = PathText.join (tree.modulePath dotted) name := by
  rw [modulePath_eq, modulePath_eq, DottedName.trail_joinName_of_plain plain filled, List.foldl_append]
  rfl

/-- Below a module no name is that of a class file. -/
theorem classFolderName_joinName {dotted : String} (valid : isModuleName dotted = true)
    (plain : '.' ∉ name.toList) :
    DottedName.classFolderName (joinName dotted name) = joinName dotted name := by
  rcases DottedName.dropClassFile_cases (DottedName.segments (joinName dotted name)) with
    ⟨outer, last, cut⟩ | kept
  · rw [DottedName.segments_joinName dotted plain] at cut
    obtain ⟨before, -⟩ := List.append_inj' cut rfl
    have inside : '@' :: last ∈ (DottedName.trail dotted).map String.toList := by simp [before]
    obtain ⟨part, member, chars⟩ := List.mem_map.mp inside
    exact absurd (by simp [IsMarked, chars]) (not_isMarked_of_mem_trail valid member)
  · rw [DottedName.classFolderName, kept, DottedName.ofSegments_segments]

/-- The path of a module below another goes through the folder of its name, unless that name is cut
again. -/
theorem modulePath_joinName_iff {dotted : String} (entry : IsEntryName name)
    (flat : HasNoSlash (joinName dotted name)) (valid : isModuleName (joinName dotted name) = true) :
    tree.modulePath (joinName dotted name) = PathText.join (tree.modulePath dotted) name ↔
      '.' ∉ name.toList := by
  have entries : ∀ part ∈ DottedName.trail dotted ++ DottedName.trail name, IsEntryName part := by
    rw [← DottedName.trail_joinName entry.filled]
    exact fun part => isEntryName_of_mem_trail flat valid
  rw [← DottedName.trail_eq_singleton_iff entry.filled, modulePath_eq, modulePath_eq,
    DottedName.trail_joinName entry.filled]
  constructor
  · intro same
    have steps := congrArg PathText.steps same
    rw [PathText.steps_join entry, PathText.steps_foldl_join entries, PathText.steps_foldl_join
      (fun part inside => entries part (List.mem_append_left _ inside)), List.map_append,
      ← List.append_assoc, List.append_cancel_left_eq] at steps
    exact List.map_injective_iff.mpr (fun _ _ => String.toList_inj.mp) (by simpa using steps)
  · intro one
    rw [one, List.foldl_append]
    rfl

/-- What an entry of a module's folder adds to the members under `key`. -/
def memberUnder (tree : SourceTree) (m : ModuleDoc) (key name : String) : Option Entity :=
  (tree.memberEntity m name).bind fun found => if found.1 = key then found.2 else none

theorem memberUnder_eq_some {e : Entity} :
    tree.memberUnder m key name = some e ↔ tree.memberEntity m name = some (key, some e) := by
  rw [memberUnder, Option.bind_eq_some_iff]
  constructor
  · rintro ⟨⟨k, found⟩, entry, same⟩
    obtain ⟨rfl, rfl⟩ := by simpa using same
    exact entry
  · intro entry
    exact ⟨_, entry, by simp⟩

/-- Of the entries with one key the first counts. -/
theorem get?_addEntities (tree : SourceTree) (m : ModuleDoc) (t : Table Entity) (names : List String)
    (key : String) : (tree.addEntities m t names).get? key =
      (t.get? key <|> names.findSome? (tree.memberUnder m key)) := by
  induction names generalizing t with
  | nil => simp [addEntities]
  | cons name r ih =>
    rw [addEntities, List.findSome?_cons]
    split
    · next k e found =>
      have under : tree.memberUnder m key name = if k = key then some e else none := by
        simp [memberUnder, found]
      split
      · next known =>
        rw [ih, under]
        by_cases same : k = key
        · subst same
          obtain ⟨old, there⟩ := Option.isSome_iff_exists.mp known
          simp [there]
        · simp [same]
      · next unknown =>
        rw [ih, under, Table.get?_insert]
        by_cases same : k = key
        · subst same
          have absent : t.get? k = none := by simpa [Table.contains] using unknown
          simp [absent]
        · simp [same]
    · next other =>
      have under : tree.memberUnder m key name = none := by
        rw [Option.eq_none_iff_forall_not_mem]
        exact fun e found => other key e (memberUnder_eq_some.mp found)
      rw [ih, under]

theorem get?_memberEntities {names : List String} (listed : tree.disk.list m.path = .ok names)
    (key : String) : (tree.memberEntities m).get? key = names.findSome? (tree.memberUnder m key) := by
  rw [memberEntities, listed]
  exact get?_addEntities tree m {} names key

theorem exists_entry_of_get? {e : Entity} (found : (tree.memberEntities m).get? key = some e) :
    ∃ names name, tree.disk.list m.path = .ok names ∧ name ∈ names ∧
      tree.memberEntity m name = some (key, some e) := by
  rcases listed : tree.disk.list m.path with _ | names
  · rw [memberEntities, listed] at found
    cases found
  · rw [get?_memberEntities listed, List.findSome?_eq_some_iff] at found
    obtain ⟨before, name, after, rfl, here, -⟩ := found
    exact ⟨_, name, rfl, by simp, memberUnder_eq_some.mp here⟩

/-- What a member can be: the module of a folder, the class of a class folder, or what a file
declares. -/
theorem memberEntity_eq_some (entry : IsEntryName name) {e : Entity}
    (found : tree.memberEntity m name = some (key, some e)) :
    let path := PathText.join m.path name
    (∃ inner, e = .module inner ∧ key = name ∧ ¬IsMarked name ∧ tree.disk.isFolder path = true ∧
      tree.moduleDoc? (joinName m.name name) = some inner) ∨
    (e.DeclaredIn m.name ∧ name = "@" ++ key ∧ tree.disk.isFolder path = true) ∨
    (e.DeclaredIn m.name ∧ isIdentifier key = true ∧ tree.disk.isFolder path = false ∧
      ∃ extension, name = key ++ "." ++ extension) := by
  intro path
  unfold memberEntity at found
  dsimp only at found
  split at found
  · cases found
  split at found
  · next folder =>
    split at found
    · next cls chars =>
      obtain ⟨rfl, declared⟩ := by simpa using found
      refine .inr (.inl ⟨declaredIn_classFolderEntity declared, ?_, folder⟩)
      rw [← String.toList_inj, chars]
      simp
    · next free =>
      obtain ⟨rfl, inner, there, rfl⟩ := by simpa using found
      refine .inl ⟨inner, rfl, rfl, fun marked => ?_, folder, there⟩
      obtain ⟨r, chars⟩ := List.head?_eq_some_iff.mp marked
      exact free r chars
  · next file =>
    split at found
    · cases found
    · split at found
      · next word =>
        obtain ⟨rfl, declared⟩ := by simpa using found
        obtain ⟨word, extension⟩ := (Bool.and_eq_true _ _).mp word
        refine .inr (.inr ⟨declaredIn_fileEntity declared, word, by simpa using file, ?_⟩)
        rcases (Bool.or_eq_true _ _).mp extension with plain | application
        · exact ⟨_, PathText.eq_of_extension? entry (by simpa using plain)⟩
        · exact ⟨_, PathText.eq_of_extension? entry (by simpa using application)⟩
      · cases found

/-- The folder of a module can be listed. -/
theorem exists_list_of_moduleDoc? (there : tree.moduleDoc? m.name = some m) :
    m.path = tree.modulePath m.name ∧ isModuleName m.name = true ∧
      ∃ names, tree.disk.list m.path = .ok names := by
  obtain ⟨same, valid, folder⟩ := moduleDoc?_eq_some there
  have path : m.path = tree.modulePath m.name := congrArg ModuleDoc.path same
  exact ⟨path, valid, Disk.exists_list (path ▸ folder)⟩

/-- A folder whose name needs no second cut is the module of its name, and nothing else is. -/
theorem moduleDoc?_joinName (there : tree.moduleDoc? m.name = some m) (plain : '.' ∉ name.toList)
    (flat : HasNoSlash name) (filled : name = "" → m.name ≠ "") :
    (tree.disk.HasFolder m.path name ∧ name ≠ "" ∧ ¬IsMarked name ∧
      ∃ inner, tree.moduleDoc? (joinName m.name name) = some inner ∧
        inner.path = PathText.join m.path name) ∨
    ((tree.disk.HasFolder m.path name → name = "" ∨ IsMarked name) ∧
      tree.moduleDoc? (joinName m.name name) = none) := by
  obtain ⟨path, valid, names, listed⟩ := exists_list_of_moduleDoc? there
  have named := isModuleName_joinName_iff valid plain filled
  have below : tree.modulePath (joinName m.name name) = PathText.join m.path name := by
    rw [path]
    exact modulePath_joinName plain filled
  by_cases free : name ≠ "" ∧ ¬IsMarked name
  · have point (text : String) (dots : '.' ∈ text.toList) : name ≠ text := by
      rintro rfl
      exact plain dots
    have entry : IsEntryName name := ⟨free.1, point "." (by decide), point ".." (by decide), flat⟩
    rw [Disk.hasFolder_iff listed entry, ← below]
    by_cases inner : tree.disk.isFolder (tree.modulePath (joinName m.name name)) = true
    · exact .inl ⟨inner, free.1, free.2, by simp [moduleDoc?, named.mpr free, inner]⟩
    · exact .inr ⟨fun folder => absurd folder inner, by simp [moduleDoc?, inner]⟩
  · have invalid : isModuleName (joinName m.name name) = false := by
      rwa [← Bool.not_eq_true, named]
    exact .inr ⟨fun _ => by tauto, by simp [moduleDoc?, invalid]⟩

end SourceTree

end MatlabOutline
