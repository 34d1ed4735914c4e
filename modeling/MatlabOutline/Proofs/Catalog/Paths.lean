import MatlabOutline.Catalog.Superclass
import MatlabOutline.Proofs.Lexing.Spelling

/-!
Paths and the places that they lead to. Every name that a path is extended by adds one step to it,
and leads one folder down on the disk.
-/

namespace MatlabOutline

/-- A name that an entry of a folder can have. -/
structure IsEntryName (name : String) : Prop where
  filled : name ≠ ""
  notHere : name ≠ "."
  notAbove : name ≠ ".."
  whole : '/' ∉ name.toList

instance (name : String) : Decidable (IsEntryName name) :=
  decidable_of_iff (name ≠ "" ∧ name ≠ "." ∧ name ≠ ".." ∧ '/' ∉ name.toList)
    ⟨fun ⟨filled, notHere, notAbove, whole⟩ => ⟨filled, notHere, notAbove, whole⟩,
      fun entry => ⟨entry.filled, entry.notHere, entry.notAbove, entry.whole⟩⟩

namespace PathText

/-- The parts of a path that lead somewhere. -/
def steps (path : String) : List (List Char) :=
  (parts path).filter (· != ['.'])

theorem slash_not_mem_steps {path : String} {part : List Char} (member : part ∈ steps path) :
    '/' ∉ part :=
  Text.not_mem_of_mem_splitAt (List.mem_of_mem_filter (List.mem_of_mem_filter member))

theorem steps_ofList {path : String} {cs : List Char} {ps : List (List Char)}
    (chars : path.toList = cs)
    (cut : ((Text.splitAt '/' cs).filter (!·.isEmpty)).filter (· != ['.']) = ps) :
    steps path = ps := by
  rw [steps, parts, chars, cut]

theorem steps_normal (path : String) : steps (normal path) = steps path := by
  have again : (Text.splitAt '/' (Text.joinWith '/' (steps path))).filter (!·.isEmpty) = steps path :=
    Text.filter_splitAt_joinWith (fun _ => slash_not_mem_steps) fun p member => by
      simpa using (List.mem_filter.mp (List.mem_of_mem_filter member)).2
  have still : (steps path).filter (· != ['.']) = steps path := by
    simp [steps, List.filter_filter]
  unfold normal
  split <;> refine steps_ofList String.toList_ofList ?_
  · simp only [Text.splitAt, if_true, List.filter_cons, List.isEmpty_nil, Bool.not_true,
      Bool.false_eq_true, if_false]
    exact (congrArg _ again).trans still
  · simp only [Text.splitAt, if_true, if_false, Char.reduceEq, List.filter_cons, List.isEmpty_cons,
      Bool.not_false, bne_self_eq_false, Bool.false_eq_true]
    exact (congrArg _ again).trans still
  · exact (congrArg _ again).trans still

/-- Paths that have one spelling in common go the same steps. -/
theorem steps_eq_of_normal {p q : String} (same : normal p = normal q) : steps p = steps q := by
  rw [← steps_normal p, same, steps_normal]

/-- What joining an entry's name does to the parts of a path: it comes last, in place of the empty
part behind a `/`. -/
theorem splitAt_join {name : String} (entry : IsEntryName name) (path : String) :
    ∃ lead, Text.splitAt '/' (join path name).toList = lead ++ [name.toList] ∧
      (path = "" ∧ lead = [] ∨ Text.splitAt '/' path.toList = lead ∨
        Text.splitAt '/' path.toList = lead ++ [[]]) := by
  have alone : Text.splitAt '/' name.toList = [name.toList] := Text.splitAt_of_not_mem entry.whole
  have relative : name.toList.head? ≠ some '/' := fun first =>
    entry.whole (List.mem_of_mem_head? first)
  rw [join, if_neg relative]
  by_cases empty : path = ""
  · exact ⟨[], by simp [empty, alone], .inl ⟨empty, rfl⟩⟩
  by_cases closed : path.toList.getLast? = some '/'
  · obtain ⟨front, chars⟩ : ∃ front, path.toList = front ++ ['/'] := by
      obtain ⟨filled, last⟩ := List.getLast?_eq_some_iff.mp closed
      exact ⟨_, last⟩
    refine ⟨Text.splitAt '/' front, ?_, .inr (.inr ?_)⟩
    · rw [if_pos (by simp [closed]), String.toList_append, chars, List.append_assoc,
        List.singleton_append, Text.splitAt_mark, alone]
    · rw [chars, Text.splitAt_mark]
      rfl
  · refine ⟨Text.splitAt '/' path.toList, ?_, .inr (.inl rfl)⟩
    have slash : ("/" : String).toList = ['/'] := rfl
    rw [if_neg (by simp [closed, empty]), String.toList_append, String.toList_append, slash,
      List.append_assoc, List.singleton_append, Text.splitAt_mark, alone]

theorem steps_join {name : String} (entry : IsEntryName name) (path : String) :
    steps (join path name) = steps path ++ [name.toList] := by
  obtain ⟨lead, cut, shape⟩ := splitAt_join entry path
  have same : lead.filter (!·.isEmpty) = parts path := by
    rcases shape with ⟨rfl, rfl⟩ | whole | closed
    · rfl
    · rw [parts, whole]
    · simp [parts, closed]
  have filled : (!name.toList.isEmpty) = true := by simpa using entry.filled
  have away : (name.toList != ['.']) = true := by
    simpa [← String.toList_inj] using entry.notHere
  rw [steps, parts, cut, List.filter_append, same]
  simp [steps, filled, away]

theorem isAbsolute_join {name : String} (entry : IsEntryName name) (path : String) :
    (join path name).toList.head? = some '/' ↔ path.toList.head? = some '/' := by
  have relative : name.toList.head? ≠ some '/' := fun first =>
    entry.whole (List.mem_of_mem_head? first)
  rw [join, if_neg relative]
  by_cases empty : path = ""
  · simpa [empty] using relative
  · obtain ⟨c, cs, chars⟩ := List.exists_cons_of_ne_nil (by simpa using empty : path.toList ≠ [])
    split <;> simp [chars]

end PathText

namespace FileTree

/-- Every entry of every folder has a name of its own kind. -/
inductive Proper : FileTree → Prop
  | file (contents : Bytes) : Proper (.file contents)
  | folder (entries : List (String × FileTree)) (names : ∀ e ∈ entries, IsEntryName e.1)
      (inner : ∀ e ∈ entries, Proper e.2) : Proper (.folder entries)

theorem mem_of_child? {t child : FileTree} {name : String} (found : t.child? name = some child) :
    (name, child) ∈ t.entries := by
  rw [child?] at found
  generalize t.entries = es at found
  induction es with
  | nil => simp at found
  | cons e es ih =>
    rw [List.lookup_cons] at found
    split at found
    · next same =>
      cases e
      simp_all
    · exact List.mem_cons_of_mem e (ih found)

/-- A part that leads nowhere else. -/
def IsIdle (part : String) : Prop :=
  part = "" ∨ part = "."

theorem follow_cons (above : List FileTree) (here : FileTree) (part : String) (r : List String) :
    follow above here (part :: r) =
      if !here.isFolder then .error .notFolder
      else if part.isEmpty || part = "." then follow above here r
      else if part = ".." then follow above.tail (above.headD here) r
      else match here.child? part with
        | some child => follow (here :: above) child r
        | none => .error .notFound := by
  cases above <;> rfl

/-- A path that leads somewhere stays, goes up or goes down at each part. -/
theorem follow_cons_cases {above : List FileTree} {here t : FileTree} {part : String}
    {r : List String} (found : follow above here (part :: r) = .ok t) :
    here.isFolder = true ∧
      (IsIdle part ∧ follow above here r = .ok t ∨
        part = ".." ∧ follow above.tail (above.headD here) r = .ok t ∨
        ¬IsIdle part ∧ part ≠ ".." ∧
          ∃ child, here.child? part = some child ∧ follow (here :: above) child r = .ok t) := by
  rw [follow_cons] at found
  split at found
  · cases found
  next folder =>
  refine ⟨by simpa using folder, ?_⟩
  split at found
  · next idle => exact .inl ⟨by simpa [IsIdle] using idle, found⟩
  next busy =>
  split at found
  · next up => exact .inr (.inl ⟨up, found⟩)
  next down =>
  split at found
  · next child inside => exact .inr (.inr ⟨by simpa [IsIdle] using busy, down, child, inside, found⟩)
  · cases found

theorem mem_of_mem_tail_headD {above : List FileTree} {here a : FileTree}
    (member : a ∈ above.headD here :: above.tail) : a ∈ here :: above := by
  cases above with
  | nil => exact member
  | cons outer more => exact List.mem_cons_of_mem here member

/-- What holds of the folders on the way, and of all that stands in such a folder, holds of what a
path leads to. -/
theorem follow_keeps {P : FileTree → Prop}
    (inner : ∀ t name child, P t → t.child? name = some child → P child) {above : List FileTree}
    {here t : FileTree} {parts : List String} (start : ∀ a ∈ here :: above, P a)
    (found : follow above here parts = .ok t) : P t := by
  induction parts generalizing above here with
  | nil => cases found; exact start _ List.mem_cons_self
  | cons part r ih =>
    obtain ⟨-, ⟨-, stay⟩ | ⟨-, up⟩ | ⟨-, -, child, inside, down⟩⟩ := follow_cons_cases found
    · exact ih start stay
    · exact ih (fun a member => start a (mem_of_mem_tail_headD member)) up
    · have lower := inner here part child (start here List.mem_cons_self) inside
      exact ih (List.forall_mem_cons.mpr ⟨lower, start⟩) down

theorem Proper.follow {above : List FileTree} {here t : FileTree} {parts : List String}
    (start : ∀ a ∈ here :: above, Proper a) (found : follow above here parts = .ok t) :
    Proper t := by
  refine follow_keeps (fun t name child proper inside => ?_) start found
  have member := mem_of_child? inside
  cases proper with
  | file => simp [entries] at member
  | folder es _ inner => exact inner _ member

theorem height_le_heights {es : List (String × FileTree)} {e : String × FileTree}
    (member : e ∈ es) : e.2.height ≤ height.heights es := by
  induction es with
  | nil => simp at member
  | cons first es ih =>
    rw [height.heights]
    rcases List.mem_cons.mp member with rfl | later
    · exact le_max_left _ _
    · exact (ih later).trans (le_max_right _ _)

theorem height_child?_lt {t child : FileTree} {name : String} (found : t.child? name = some child) :
    child.height < t.height := by
  have member := mem_of_child? found
  cases t with
  | file => simp [entries] at member
  | folder es => exact Nat.lt_succ_of_le (height_le_heights member)

theorem height_pos (t : FileTree) : 0 < t.height := by
  cases t <;> simp [height]

/-- Every name leads one folder down. -/
theorem length_add_height_le {above : List FileTree} {here t : FileTree} {names : List String}
    (entries : ∀ name ∈ names, IsEntryName name) (found : follow above here names = .ok t) :
    names.length + t.height ≤ here.height := by
  induction names generalizing above here with
  | nil => cases found; simp
  | cons name r ih =>
    have entry := entries name List.mem_cons_self
    obtain ⟨-, ⟨idle, -⟩ | ⟨up, -⟩ | ⟨-, -, child, inside, down⟩⟩ := follow_cons_cases found
    · exact absurd idle (by simp [IsIdle, entry.filled, entry.notHere])
    · exact absurd up entry.notAbove
    · have below := ih (fun n member => entries n (List.mem_cons_of_mem name member)) down
      have lower := height_child?_lt inside
      rw [List.length_cons]
      omega

/-- Names at the end of a path go down from somewhere in the tree. -/
theorem length_lt_of_follow {bound : Nat} {above : List FileTree} {here t : FileTree}
    {parts names : List String} (start : ∀ a ∈ here :: above, a.height ≤ bound)
    (entries : ∀ name ∈ names, IsEntryName name)
    (found : follow above here (parts ++ names) = .ok t) : names.length < bound := by
  induction parts generalizing above here with
  | nil =>
    have down := length_add_height_le entries found
    have low := start here List.mem_cons_self
    have high := t.height_pos
    omega
  | cons part r ih =>
    obtain ⟨-, ⟨-, stay⟩ | ⟨-, up⟩ | ⟨-, -, child, inside, down⟩⟩ := follow_cons_cases found
    · exact ih start stay
    · exact ih (fun a member => start a (mem_of_mem_tail_headD member)) up
    · have lower := (height_child?_lt inside).le.trans (start here List.mem_cons_self)
      exact ih (List.forall_mem_cons.mpr ⟨lower, start⟩) down

instance (part : String) : Decidable (IsIdle part) :=
  inferInstanceAs (Decidable (_ ∨ _))

/-- Parts that stay where they are can be left out. -/
theorem follow_filter {above : List FileTree} {here t : FileTree} {parts : List String}
    (found : follow above here parts = .ok t) :
    follow above here (parts.filter (¬IsIdle ·)) = .ok t := by
  induction parts generalizing above here with
  | nil => exact found
  | cons part r ih =>
    obtain ⟨folder, ⟨idle, stay⟩ | ⟨rfl, up⟩ | ⟨busy, name, child, inside, down⟩⟩ :=
      follow_cons_cases found
    · rw [List.filter_cons_of_neg (by simpa using idle)]
      exact ih stay
    · rw [List.filter_cons_of_pos (by decide), follow_cons]
      simpa [folder] using ih up
    · have busy' : ¬(part.isEmpty || decide (part = ".")) = true := by simpa [IsIdle] using busy
      rw [List.filter_cons_of_pos (by simpa using busy), follow_cons, if_neg busy', if_neg name]
      simpa [folder, inside] using ih down

end FileTree

namespace Disk

variable (disk : Disk)

/-- The parts on the way from the root to a path, without those that stay where they are. -/
def way (path : String) : List String :=
  (disk.partsOf path).filter (¬FileTree.IsIdle ·)

theorem filter_map_ofList (parts : List (List Char)) :
    (parts.map String.ofList).filter (¬FileTree.IsIdle ·) =
      ((parts.filter (!·.isEmpty)).filter (· != ['.'])).map String.ofList := by
  rw [List.filter_map, List.filter_filter]
  congr 2
  funext part
  have dot : String.ofList part = "." ↔ part = ['.'] := by
    rw [← String.toList_inj, String.toList_ofList]
    rfl
  have empty : String.ofList part = "" ↔ part = [] := by
    rw [← String.toList_inj, String.toList_ofList]
    rfl
  rw [Bool.eq_iff_iff]
  simp [FileTree.IsIdle, dot, empty, and_comm]

/-- The way goes the steps of the path. -/
theorem way_eq (path : String) : disk.way path =
    (if path.toList.head? = some '/' then [] else disk.base.filter (¬FileTree.IsIdle ·)) ++
      (PathText.steps path).map String.ofList := by
  unfold way partsOf
  split <;> simp only [List.filter_append, List.nil_append, filter_map_ofList] <;> rfl

theorem way_join {name : String} (entry : IsEntryName name) (path : String) :
    disk.way (PathText.join path name) = disk.way path ++ [name] := by
  simp only [way_eq, PathText.steps_join entry, PathText.isAbsolute_join entry, List.map_append,
    List.map_singleton, String.ofList_toList, List.append_assoc]

theorem way_foldl_join {names : List String} (entries : ∀ name ∈ names, IsEntryName name)
    (path : String) : disk.way (names.foldl PathText.join path) = disk.way path ++ names := by
  induction names generalizing path with
  | nil => simp
  | cons name r ih =>
    rw [List.foldl_cons, ih (fun n member => entries n (List.mem_cons_of_mem name member)),
      way_join disk (entries name List.mem_cons_self), List.append_assoc, List.singleton_append]

variable {disk}

theorem follow_way {path : String} {t : FileTree} (found : disk.find path = .ok t) :
    disk.root.follow [] (disk.way path) = .ok t := by
  rw [find] at found
  split at found
  · cases found
  · exact FileTree.follow_filter found

/-- No folder lies deeper than the tree is high. -/
theorem length_lt_height {names : List String} {path : String}
    (entries : ∀ name ∈ names, IsEntryName name)
    (folder : disk.isFolder (names.foldl PathText.join path) = true) :
    names.length < disk.root.height := by
  rw [isFolder] at folder
  split at folder
  · next t found =>
    have way := follow_way found
    rw [way_foldl_join disk entries] at way
    exact FileTree.length_lt_of_follow (by simp) entries way
  · cases folder

theorem isEntryName_of_list (proper : disk.root.Proper) {path : String} {names : List String}
    (listed : disk.list path = .ok names) : ∀ name ∈ names, IsEntryName name := by
  rw [list] at listed
  split at listed
  · next t found =>
    rw [find] at found
    split at found
    · cases found
    have inner : t.Proper := .follow (by simpa using proper) found
    split at listed
    · cases listed
      intro name member
      rw [FileTree.names, List.mem_mergeSort, List.mem_map] at member
      obtain ⟨e, inside, rfl⟩ := member
      cases inner with
      | file => simp [FileTree.entries] at inside
      | folder es names _ => exact names e inside
    · cases listed
  · cases listed

/-- A folder can be listed. -/
theorem exists_list {path : String} (folder : disk.isFolder path = true) :
    ∃ names, disk.list path = .ok names := by
  rw [isFolder] at folder
  rw [list]
  split at folder
  · next t found => exact ⟨t.names, if_pos folder⟩
  · cases folder

end Disk

namespace DottedName

/-- The folders on the way from the root of the source tree to a module. -/
def trail (dotted : String) : List String :=
  if dotted.isEmpty then [] else (segments dotted).map String.ofList

theorem segments_join (scope name : String) :
    segments (scope ++ "." ++ name) = segments scope ++ segments name := by
  have point : (".":String).toList = ['.'] := rfl
  rw [segments, String.toList_append, String.toList_append, point, List.append_assoc,
    List.singleton_append, Text.splitAt_mark]
  rfl

/-- A name within a module lies deeper than the module. -/
theorem length_trail_lt {scope name : String} (filled : name ≠ "") :
    (trail scope).length < (trail (joinName scope name)).length := by
  have some : 0 < (segments name).length := List.length_pos_iff.mpr (Text.splitAt_ne_nil _ _)
  unfold joinName trail
  by_cases empty : scope = ""
  · simpa [empty, filled] using some
  · simp [empty, segments_join, some]

end DottedName

/-- A text without the mark between the parts of a path. -/
def HasNoSlash (name : String) : Prop :=
  '/' ∉ name.toList

theorem HasNoSlash.joinName {scope name : String} (outer : HasNoSlash scope)
    (inner : HasNoSlash name) : HasNoSlash (joinName scope name) := by
  unfold HasNoSlash at *
  unfold MatlabOutline.joinName
  split
  · exact inner
  · simp [outer, inner]

theorem IsEntryName.hasNoSlash_tail {name : String} (entry : IsEntryName name) {c : Char} {r : List Char}
    (chars : name.toList = c :: r) : HasNoSlash (String.ofList r) := by
  have whole := entry.whole
  rw [chars, List.mem_cons, not_or] at whole
  simpa [HasNoSlash] using whole.2

theorem isEntryName_classFile {name : String} (flat : HasNoSlash name) :
    IsEntryName (name ++ ".m") := by
  have last (text : String) (other : text.toList.getLast? ≠ some 'm') : name ++ ".m" ≠ text := by
    rintro rfl
    simp at other
  exact ⟨last _ (by decide), last _ (by decide), last _ (by decide), by simpa [HasNoSlash] using flat⟩

namespace SourceTree

theorem modulePath_eq (tree : SourceTree) (dotted : String) :
    tree.modulePath dotted = (DottedName.trail dotted).foldl PathText.join tree.settings.root := by
  unfold modulePath DottedName.trail
  split <;> rfl

theorem isEntryName_of_mem_trail {dotted name : String} (flat : HasNoSlash dotted)
    (valid : isModuleName dotted = true) (member : name ∈ DottedName.trail dotted) :
    IsEntryName name := by
  unfold DottedName.trail at member
  split at member
  · simp at member
  next filled =>
  obtain ⟨part, inside, rfl⟩ := List.mem_map.mp member
  have away : '.' ∉ part := Text.not_mem_of_mem_splitAt inside
  rw [isModuleName, Bool.or_eq_true, List.all_eq_true] at valid
  have named := (Bool.and_eq_true _ _).mp (valid.resolve_left filled part inside)
  have chars : ∀ text : String, '.' ∈ text.toList → String.ofList part ≠ text := by
    rintro text point rfl
    exact away (by simpa using point)
  refine ⟨by simpa using named.1, chars "." (by decide), chars ".." (by decide), ?_⟩
  rw [String.toList_ofList]
  exact fun slash => flat (Text.mem_of_mem_splitAt inside slash)

/-- A module that is there lies no deeper than the disk is high. -/
theorem length_trail_lt_height {tree : SourceTree} {dotted : String} (flat : HasNoSlash dotted)
    (valid : isModuleName dotted = true)
    (folder : tree.disk.isFolder (tree.modulePath dotted) = true) :
    (DottedName.trail dotted).length < tree.disk.root.height := by
  rw [modulePath_eq] at folder
  exact Disk.length_lt_height (fun _ => isEntryName_of_mem_trail flat valid) folder

/-- The name of a folder at least `depth` levels down. -/
def IsDeep (depth : Nat) (dotted : String) : Prop :=
  HasNoSlash dotted ∧ depth ≤ (DottedName.trail dotted).length

theorem isDeep_root : ∀ dotted ∈ [""], IsDeep 0 dotted := by
  rintro _ ⟨⟩
  · exact ⟨by simp [HasNoSlash], Nat.zero_le _⟩
  · contradiction

theorem IsDeep.joinName {depth : Nat} {scope name : String} (deep : IsDeep depth scope)
    (entry : IsEntryName name) : IsDeep (depth + 1) (joinName scope name) :=
  ⟨deep.1.joinName entry.whole,
    Nat.lt_of_le_of_lt deep.2 (DottedName.length_trail_lt entry.filled)⟩

end SourceTree

end MatlabOutline
