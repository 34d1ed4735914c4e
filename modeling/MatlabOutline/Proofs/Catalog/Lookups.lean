import MatlabOutline.Proofs.Catalog.Order

/-!
Every lookup keeps to the order of loading: files are loaded alone, class folders from the files in
them, modules from files, members from modules and files, names from members, and superclasses from
names.
-/

namespace MatlabOutline

namespace SourceTree

open Catalog

variable {tree : SourceTree} {bound : ℕ ×ₗ ℕᵒᵈ} {left : Diagnostic → Prop}

theorem orderly_file {path scope : String} (lower : (Key.file (PathText.normal path)).rank < bound) :
    Orderly tree bound left (tree.file path scope) := by
  rw [file_eq]
  refine (orderly_once (slot_file _) lower fun c _ => ?_).map _
  obtain ⟨r, log, -, run⟩ := tree.loadsAlone_loadFile path scope c
  refine ⟨tree.fileDiagnostics path scope, [], .inr ⟨path, scope, rfl, rfl⟩, ?_⟩
  rw [run]
  exact .remark tree _ c (Nat.le_add_right _ _) _ log

theorem orderly_module (dotted : String) (lower : (Key.module dotted).rank < bound) :
    Orderly tree bound left (tree.module dotted) := by
  refine (orderly_once (slot_module _) lower ?_).map _
  have loader : Orderly tree (Key.module dotted).rank (Key.module dotted).Says
      (tree.loadModule dotted) := by
    simp only [loadModule]
    split
    · refine (orderly_note _ _ _).bind fun _ => Orderly.bind ?_ fun doc => (orderly_number _).map _
      unfold folderDoc
      simp only
      split
      · exact (orderly_file (Key.rank_file_lt_module _ _)).map _
      · exact orderly_pure none
    · exact orderly_pure _
  exact loader

theorem orderly_mergeFiles {scope : String} {paths : List String}
    (lower : ∀ path ∈ paths, (Key.file (PathText.normal path)).rank < bound) (c : ClassDoc) :
    Orderly tree bound left (tree.mergeFiles scope c paths) := by
  induction paths generalizing c with
  | nil => exact orderly_pure c
  | cons path r ih =>
    have rest := ih fun p member => lower p (List.mem_cons_of_mem path member)
    refine (orderly_file (lower path List.mem_cons_self)).bind fun found => ?_
    rcases found with _ | item
    · exact rest c
    · dsimp only
      split
      · exact rest _
      · exact (orderly_note _ _ _).bind fun _ => rest c

theorem orderly_classFolder (proper : tree.disk.root.Proper) {path name scope : String}
    (flat : HasNoSlash name) (folder : tree.disk.isFolder path = true)
    (lower : (Key.file (PathText.normal path)).rank < bound) :
    Orderly tree bound left (tree.classFolder path name scope) := by
  have loader : Orderly tree (Key.file (PathText.normal path)).rank (fun _ => False)
      (tree.loadClassFolder path name scope) := by
    simp only [loadClassFolder]
    refine (orderly_file (Key.rank_file_join_lt (isEntryName_classFile flat) path)).bind fun found => ?_
    rcases found with _ | item
    · exact orderly_pure _
    dsimp only
    split
    · exact orderly_pure _
    · obtain ⟨names, listed⟩ := Disk.exists_list folder
      simp only [listed]
      refine (orderly_mergeFiles (fun file member => ?_) _).bind fun merged =>
        (orderly_numberCopy merged item).map _
      obtain ⟨entry, inside, rfl⟩ := List.mem_map.mp (List.mem_of_mem_filter member)
      exact Key.rank_file_join_lt (Disk.isEntryName_of_list proper listed entry inside) path
  refine (orderly_once (slot_file _) lower fun c clear => ?_).map _
  obtain ⟨loose, new, said, loaded⟩ := loader c clear
  exact ⟨loose, new, .inl (List.eq_nil_iff_forall_not_mem.mpr said), loaded⟩

theorem orderly_member (proper : tree.disk.root.Proper) (serial : Nat) (m : ModuleDoc) {name : String}
    (entry : IsEntryName name) :
    Orderly tree (Key.members serial).rank left (tree.member m name) := by
  have file_lt (path : String) : (Key.file path).rank < (Key.members serial).rank :=
    (Key.rank_file_lt_module path "").trans (Key.rank_module_lt_members "" serial)
  unfold member
  dsimp only
  split
  · exact orderly_pure _
  · split
    · next folder =>
      split
      · next cls chars =>
        exact (orderly_classFolder proper (entry.hasNoSlash_tail chars) folder (file_lt _)).map _
      · exact (orderly_module _ (Key.rank_module_lt_members _ serial)).map _
    · split
      · exact orderly_pure _
      · split
        · exact (orderly_file (file_lt _)).map _
        · exact orderly_pure _

theorem orderly_addMembers (proper : tree.disk.root.Proper) (serial : Nat) (m : ModuleDoc)
    {names : List String} (entries : ∀ name ∈ names, IsEntryName name) (t : Table Item) :
    Orderly tree (Key.members serial).rank left (tree.addMembers m t names) := by
  induction names generalizing t with
  | nil => exact orderly_pure t
  | cons name r ih =>
    have rest := ih fun n inside => entries n (List.mem_cons_of_mem name inside)
    refine (orderly_member proper serial m (entries name List.mem_cons_self)).bind fun found => ?_
    split
    · split
      · exact (orderly_note _ _ _).bind fun _ => rest t
      · exact rest _
    · exact rest t

theorem orderly_loadMembers (proper : tree.disk.root.Proper) (serial : Nat) (m : ModuleDoc) :
    Orderly tree (Key.members serial).rank (Key.members serial).Says (tree.loadMembers m) := by
  unfold loadMembers
  split
  · next f _ =>
    refine (orderly_of_remarks (remarks_report _ _) ?_).map _
    simpa using ⟨m.path, f, rfl⟩
  · next names listed =>
    exact orderly_addMembers proper serial m (Disk.isEntryName_of_list proper listed) {}

theorem orderly_members (proper : tree.disk.root.Proper) (item : Item)
    (lower : (Key.members item.serial).rank < bound) :
    Orderly tree bound left (tree.members item) := by
  unfold members
  split
  · next m _ =>
    exact (orderly_once (slot_members _) lower (orderly_loadMembers proper item.serial m)).map _
  · exact orderly_pure _

theorem orderly_get? (proper : tree.disk.root.Proper) (item : Item) (key : String)
    (lower : (Key.members item.serial).rank < bound) :
    Orderly tree bound left (tree.get? item key) :=
  (orderly_members proper item lower).map _

theorem orderly_findIn (proper : tree.disk.root.Proper) (name outer : String) (packages : List String)
    (last : String) : Orderly tree (Key.name name).rank left (tree.findIn outer packages last) := by
  have members_lt (serial : Nat) := Key.rank_members_lt_name serial name
  have module_lt (dotted : String) :=
    (Key.rank_module_lt_members dotted 0).trans (members_lt 0)
  refine (orderly_module _ (module_lt _)).bind fun found => ?_
  rcases found with _ | item
  · exact orderly_pure _
  · refine (orderly_get? proper item _ (members_lt _)).bind fun plain => ?_
    split
    · exact orderly_pure _
    · exact (orderly_get? proper item _ (members_lt _)).map _

theorem orderly_searchLevel (proper : tree.disk.root.Proper) (name : String) (packages : List String)
    (last : String) (folders : List String) :
    Orderly tree (Key.name name).rank left (tree.searchLevel packages last folders) := by
  have members_lt (serial : Nat) := Key.rank_members_lt_name serial name
  have module_lt (dotted : String) :=
    (Key.rank_module_lt_members dotted 0).trans (members_lt 0)
  induction folders with
  | nil => exact orderly_pure _
  | cons folder r ih =>
    refine (orderly_module _ (module_lt _)).bind fun found => ?_
    rcases found with _ | item
    · exact ih
    · refine (orderly_findIn proper name folder packages last).bind fun found => ?_
      rcases found with _ | found
      · refine (orderly_members proper item (members_lt _)).bind fun t => ih.bind fun more => ?_
        cases more <;> exact orderly_pure _
      · exact orderly_pure _

theorem orderly_searchLevels (proper : tree.disk.root.Proper) (name : String)
    (packages : List String) (last : String) (depth : Nat) (folders : List String) :
    Orderly tree (Key.name name).rank left (tree.searchLevels packages last depth folders) := by
  induction depth generalizing folders with
  | zero => cases folders <;> exact orderly_pure none
  | succ n ih =>
    cases folders with
    | nil => exact orderly_pure none
    | cons folder r =>
      refine (orderly_searchLevel proper name packages last (folder :: r)).bind fun found => ?_
      cases found with
      | inl found => exact orderly_pure _
      | inr inner => exact ih inner

theorem orderly_codeName (proper : tree.disk.root.Proper) (name : String)
    (lower : (Key.name name).rank < bound) : Orderly tree bound left (tree.codeName name) := by
  unfold codeName
  split
  · refine (orderly_once (slot_name _) lower ?_).map _
    have loader : Orderly tree (Key.name name).rank (Key.name name).Says (tree.loadCodeName name) := by
      refine orderly_get fun c => (orderly_searchLevels proper name _ _ _ _).bind fun found => ?_
      cases found with
      | some item => exact (orderly_note _ _ _).map _
      | none => exact orderly_pure _
    exact loader
  · exact orderly_pure _

theorem orderly_entity (proper : tree.disk.root.Proper) (serial : Nat) (name : String) :
    Orderly tree (Key.bases serial).rank left (tree.entity name) := by
  have members_lt (s : Nat) : (Key.members s).rank < (Key.bases serial).rank :=
    (Key.rank_members_lt_name s name).trans (Key.rank_name_lt_bases name serial)
  have module_lt (dotted : String) := (Key.rank_module_lt_members dotted 0).trans (members_lt 0)
  refine (orderly_module _ (module_lt _)).bind fun found => ?_
  rcases found with _ | item
  · refine (orderly_module _ (module_lt _)).bind fun found => ?_
    rcases found with _ | item
    · exact orderly_pure _
    · exact orderly_get? proper item _ (members_lt _)
  · exact orderly_pure _

theorem orderly_resolve (proper : tree.disk.root.Proper) (serial : Nat) (name : String)
    (within : Option String) :
    Orderly tree (Key.bases serial).rank left (tree.resolve name within) := by
  have global : Orderly tree (Key.bases serial).rank left (tree.resolveGlobal name) := by
    refine (orderly_entity proper serial name).bind fun found => ?_
    rcases found with _ | item
    · exact orderly_codeName proper name (Key.rank_name_lt_bases name serial)
    · exact orderly_pure _
  unfold resolve
  split
  · exact global
  · next scope _ =>
    refine (orderly_entity proper serial (joinName scope name)).bind fun found => ?_
    rcases found with _ | item
    · exact global
    · exact orderly_pure _

theorem orderly_loadBases (proper : tree.disk.root.Proper) (serial : Nat) (c : ClassDoc)
    (names : List String) :
    Orderly tree (Key.bases serial).rank (Key.bases serial).Says (tree.loadBases c names) := by
  have warn (text : String)
      (said : ∃ name, text = c.notFound name ∨ ∃ kind, text = c.notClass name kind) :
      Orderly tree (Key.bases serial).rank (Key.bases serial).Says (warnSuperclass c text) := by
    refine orderly_of_remarks ((remarks_note _ _ _).bind fun _ => remarks_record _) ?_
    simpa using ⟨c, rfl, rfl, said⟩
  induction names with
  | nil => exact orderly_pure _
  | cons name r ih =>
    refine Orderly.bind ?_ fun item => ih.map _
    refine (orderly_resolve proper serial name (some c.scope)).bind fun found => ?_
    rcases found with _ | item
    · dsimp only
      split
      · exact (orderly_note _ _ _).map _
      · exact (warn _ ⟨name, .inl rfl⟩).map _
    · dsimp only
      split
      · exact orderly_pure _
      · exact (warn _ ⟨name, .inr ⟨_, rfl⟩⟩).map _

theorem orderly_bases (proper : tree.disk.root.Proper) (item : Item) :
    Orderly tree Key.top left (tree.bases item) := by
  unfold bases
  split
  · next c _ =>
    exact (orderly_once (slot_bases _) (Key.rank_lt_top _)
      (orderly_loadBases proper item.serial c c.superclasses)).map _
  · exact orderly_pure _

end SourceTree

end MatlabOutline
