import MatlabOutline.Proofs.Catalog.Files

/-!
What a source tree means: the entity behind every name, read off the disk without a catalog.
-/

namespace MatlabOutline

namespace Entity

def isModule : Entity → Bool
  | module _ => true
  | _ => false

end Entity

namespace Item

theorem isSome_module? (item : Item) : item.module?.isSome = item.entity.isModule := by
  unfold module? Entity.isModule
  cases item.entity <;> rfl

theorem isNone_module? (item : Item) : item.module?.isNone = !item.entity.isModule := by
  rw [← isSome_module?, Option.not_isSome]

end Item

namespace SourceTree

/-- What the contents file of a folder says of the folder. -/
def folderText (tree : SourceTree) (path dotted : String) : Option String :=
  let contents := PathText.join path contentsFile
  if tree.disk.isFile contents then (tree.fileEntity contents dotted).bind Entity.doc else none

/-- The module with this name, if there is a folder for it. -/
def moduleDoc? (tree : SourceTree) (dotted : String) : Option ModuleDoc :=
  let path := tree.modulePath dotted
  if isModuleName dotted && tree.disk.isFolder path then
    some { name := dotted, path, doc := tree.folderText path dotted }
  else none

/-- A class with the methods that files define. -/
def mergedClass (tree : SourceTree) (scope : String) (c : ClassDoc) : List String → ClassDoc
  | [] => c
  | path :: r =>
    match tree.fileEntity path scope with
    | some (.function f) => tree.mergedClass scope (c.mergeMethod f) r
    | _ => tree.mergedClass scope c r

/-- The class in a class folder. -/
def classFolderEntity (tree : SourceTree) (path name scope : String) : Option Entity :=
  let classFile := PathText.join path (name ++ ".m")
  match tree.fileEntity classFile scope with
  | some (.cls c) =>
    match tree.disk.list path with
    | .error _ => none
    | .ok names =>
      let paths := (names.map (PathText.join path)).filter (tree.isMethodFile classFile)
      some (.cls (tree.mergedClass scope c paths))
  | e => e

/-- The key and the entity of an entry in a module's folder, if entries like it are members. -/
def memberEntity (tree : SourceTree) (m : ModuleDoc) (name : String) : Option (String × Option Entity) :=
  let path := PathText.join m.path name
  match name.toList with
  | '.' :: _ => none
  | cs =>
    if tree.disk.isFolder path then
      match cs with
      | '@' :: cls =>
        let cls := String.ofList cls
        some (cls, tree.classFolderEntity path cls m.name)
      | _ => some (name, (tree.moduleDoc? (joinName m.name name)).map .module)
    else if name = contentsFile then none
    else
      let stem := (PathText.stem? path).getD ""
      let extension := PathText.extension? path
      if isIdentifier stem && (extension == some "m" || extension == some "mlapp") then
        some (stem, tree.fileEntity path m.name)
      else none

def addEntities (tree : SourceTree) (m : ModuleDoc) (t : Table Entity) : List String → Table Entity
  | [] => t
  | name :: r =>
    match tree.memberEntity m name with
    | some (key, some e) =>
      if t.contains key then tree.addEntities m t r else tree.addEntities m (t.insert key e) r
    | _ => tree.addEntities m t r

/-- The members of a module. -/
def memberEntities (tree : SourceTree) (m : ModuleDoc) : Table Entity :=
  match tree.disk.list m.path with
  | .error _ => {}
  | .ok names => tree.addEntities m {} names

/-- The entity with this name in the source tree. -/
def entityNamed (tree : SourceTree) (name : String) : Option Entity :=
  let name := DottedName.classFolderName name
  match tree.moduleDoc? name with
  | some m => some (.module m)
  | none =>
    let (outer, last) := DottedName.splitLast name
    match tree.moduleDoc? outer with
    | some m => (tree.memberEntities m).get? (DottedName.withoutMark last)
    | none => none

/-- What a module means by `packages` and `last`. -/
def entityIn (tree : SourceTree) (outer : String) (packages : List String) (last : String) :
    Option Entity :=
  match tree.moduleDoc? (packageName outer packages) with
  | none => none
  | some m =>
    match ((tree.memberEntities m).get? last).filter (!·.isModule) with
    | some found => some found
    | none => ((tree.memberEntities m).get? ("+" ++ last)).filter (·.isModule)

/-- The plain folders among the members of a module. -/
def folderNames (t : Table Entity) : List String :=
  t.entries.filterMap fun (key, e) =>
    match e with
    | .module m => if key.toList.head? = some '+' || key = "private" then none else some m.name
    | _ => none

/-- What is found in folders, or else the plain folders in them. -/
def entityInLevel (tree : SourceTree) (packages : List String) (last : String) :
    List String → Entity ⊕ List String
  | [] => .inr []
  | folder :: r =>
    match tree.moduleDoc? folder with
    | none => tree.entityInLevel packages last r
    | some m =>
      match tree.entityIn folder packages last with
      | some found => .inl found
      | none =>
        match tree.entityInLevel packages last r with
        | .inl found => .inl found
        | .inr more => .inr (folderNames (tree.memberEntities m) ++ more)

/-- What is found in folders or below, to at most `depth` levels. -/
def entityInLevels (tree : SourceTree) (packages : List String) (last : String) (depth : Nat)
    (folders : List String) : Option Entity :=
  match depth, folders with
  | _, [] => none
  | 0, _ => none
  | n + 1, folders =>
    match tree.entityInLevel packages last folders with
    | .inl found => some found
    | .inr inner => tree.entityInLevels packages last n inner

/-- What code means by this name. -/
def codeEntity (tree : SourceTree) (name : String) : Option Entity :=
  if isDottedIdentifier name then
    let (outer, last) := DottedName.splitLast name
    let packages := if outer.isEmpty then []
      else (DottedName.segments outer).map String.ofList
    tree.entityInLevels packages last (tree.disk.root.height + 1) [""]
  else none

def globalEntity (tree : SourceTree) (name : String) : Option Entity :=
  tree.entityNamed name <|> tree.codeEntity name

/-- What `name` means as seen from the module `within`. -/
def resolvedEntity (tree : SourceTree) (name : String) (within : Option String) : Option Entity :=
  match within.filter (!·.isEmpty) with
  | none => tree.globalEntity name
  | some scope => tree.entityNamed (joinName scope name) <|> tree.globalEntity name

/-- The class that `name` means as a superclass of a class in the module `scope`, if it is one. -/
def baseNamed (tree : SourceTree) (scope name : String) : List Entity :=
  match tree.resolvedEntity name (some scope) with
  | some (.cls base) => [.cls base]
  | _ => []

/-- The superclasses of a class that can be found. -/
def baseEntities (tree : SourceTree) (c : ClassDoc) : List Entity :=
  c.superclasses.flatMap (tree.baseNamed c.scope)

variable {tree : SourceTree}

theorem moduleDoc?_eq_some {dotted : String} {m : ModuleDoc} (found : tree.moduleDoc? dotted = some m) :
    m = { name := dotted, path := tree.modulePath dotted,
          doc := tree.folderText (tree.modulePath dotted) dotted } ∧
      isModuleName dotted = true ∧ tree.disk.isFolder (tree.modulePath dotted) = true := by
  simp only [moduleDoc?, Option.ite_none_right_eq_some, Bool.and_eq_true, Option.some.injEq] at found
  exact ⟨found.2.symm, found.1⟩

/-- Methods in files of their own change neither where a class stands nor what it inherits from. -/
theorem mergedClass_keeps (scope : String) (c : ClassDoc) (paths : List String) :
    (tree.mergedClass scope c paths).scope = c.scope ∧
      (tree.mergedClass scope c paths).superclasses = c.superclasses := by
  induction paths generalizing c with
  | nil => exact ⟨rfl, rfl⟩
  | cons path r ih =>
    unfold mergedClass
    split
    · exact ih _
    · exact ih c

theorem declaredIn_classFolderEntity {path name scope : String} {e : Entity}
    (found : tree.classFolderEntity path name scope = some e) : e.DeclaredIn scope := by
  have inside {x : Entity} := @declaredIn_fileEntity tree (PathText.join path (name ++ ".m")) scope x
  unfold classFolderEntity at found
  dsimp only at found
  generalize tree.fileEntity (PathText.join path (name ++ ".m")) scope = declared at found inside
  split at found
  · next c =>
    split at found
    · cases found
    · cases found
      rw [Entity.DeclaredIn, (mergedClass_keeps scope c _).1, (mergedClass_keeps scope c _).2]
      exact inside rfl
  · exact inside found

/-- The ways in which an entry of a module's folder is a member of the module, or is not. -/
theorem member_cases (tree : SourceTree) (m : ModuleDoc) (name : String) :
    let path := PathText.join m.path name
    (tree.member m name = pure none ∧ tree.memberEntity m name = none) ∨
    (∃ cls, name.toList = '@' :: cls ∧
      tree.member m name = (do return some (String.ofList cls,
        ← tree.classFolder path (String.ofList cls) m.name)) ∧
      tree.memberEntity m name = some (String.ofList cls,
        tree.classFolderEntity path (String.ofList cls) m.name)) ∨
    (tree.member m name = (do return some (name, ← tree.module (joinName m.name name))) ∧
      tree.memberEntity m name = some (name, (tree.moduleDoc? (joinName m.name name)).map .module)) ∨
    (isIdentifier ((PathText.stem? path).getD "") = true ∧
      tree.member m name = (do return some ((PathText.stem? path).getD "",
        ← tree.file path m.name)) ∧
      tree.memberEntity m name = some ((PathText.stem? path).getD "",
        tree.fileEntity path m.name)) := by
  intro path
  by_cases hidden : name.toList.head? = some '.'
  · obtain ⟨r, chars⟩ := List.head?_eq_some_iff.mp hidden
    exact .inl (by simp [member, memberEntity, chars])
  have shown : ∀ r, name.toList ≠ '.' :: r := fun r chars => hidden (by rw [chars]; rfl)
  by_cases folder : tree.disk.isFolder path
  · by_cases marked : name.toList.head? = some '@'
    · obtain ⟨cls, chars⟩ := List.head?_eq_some_iff.mp marked
      exact .inr (.inl ⟨cls, chars, by simp [member, memberEntity, chars, folder, path]⟩)
    · have plain : ∀ r, name.toList ≠ '@' :: r := fun r chars => marked (by rw [chars]; rfl)
      exact .inr (.inr (.inl (by simp [member, memberEntity, folder, path])))
  · by_cases contents : name = contentsFile
    · refine .inl ?_
      simp only [member, memberEntity, folder, path, Bool.false_eq_true, if_false, if_pos contents,
        and_self]
    by_cases named : isIdentifier ((PathText.stem? path).getD "") &&
        (PathText.extension? path == some "m" || PathText.extension? path == some "mlapp")
    · refine .inr (.inr (.inr ⟨((Bool.and_eq_true _ _).mp named).1, ?_⟩))
      simp only [member, memberEntity, folder, path, Bool.false_eq_true, if_false, if_neg contents,
        if_pos named, and_self]
    · refine .inl ?_
      simp only [member, memberEntity, folder, path, Bool.false_eq_true, if_false, if_neg contents,
        if_neg named, and_self]

/-- A module among the members of a module is the one with its name. -/
theorem moduleDoc?_of_memberEntity {m inner : ModuleDoc} {name key : String}
    (found : tree.memberEntity m name = some (key, some (.module inner))) :
    tree.moduleDoc? (joinName m.name name) = some inner := by
  unfold memberEntity at found
  dsimp only at found
  split at found
  · cases found
  split at found
  · split at found
    · simp only [Option.some.injEq, Prod.mk.injEq] at found
      exact (declaredIn_classFolderEntity found.2).elim
    · simp only [Option.some.injEq, Prod.mk.injEq, Option.map_eq_some_iff] at found
      obtain ⟨-, m', same, ⟨⟩⟩ := found
      exact same
  · split at found
    · cases found
    · split at found
      · simp only [Option.some.injEq, Prod.mk.injEq] at found
        exact (declaredIn_fileEntity found.2).elim
      · cases found

theorem mem_addEntities {m inner : ModuleDoc} {key : String} {names : List String}
    {t : Table Entity} (member : (key, .module inner) ∈ (tree.addEntities m t names).entries) :
    (key, .module inner) ∈ t.entries ∨
      ∃ name ∈ names, tree.moduleDoc? (joinName m.name name) = some inner := by
  induction names generalizing t with
  | nil => exact .inl member
  | cons name r ih =>
    have later {t' : Table Entity}
        (inside : (key, .module inner) ∈ (tree.addEntities m t' r).entries) :
        (key, .module inner) ∈ t'.entries ∨
          ∃ n ∈ name :: r, tree.moduleDoc? (joinName m.name n) = some inner :=
      (ih inside).imp_right fun ⟨n, inR, same⟩ => ⟨n, List.mem_cons_of_mem name inR, same⟩
    unfold addEntities at member
    split at member
    · next k e found =>
      split at member
      · exact later member
      · rcases later member with inserted | rest
        · rcases Table.mem_entries_insert inserted with same | old
          · cases same
            exact .inr ⟨name, List.mem_cons_self, moduleDoc?_of_memberEntity found⟩
          · exact .inl old
        · exact .inr rest
    · exact later member

theorem moduleDoc?_of_mem_memberEntities (proper : tree.disk.root.Proper) {m inner : ModuleDoc}
    {key : String} (member : (key, .module inner) ∈ (tree.memberEntities m).entries) :
    ∃ name, IsEntryName name ∧ tree.moduleDoc? (joinName m.name name) = some inner := by
  unfold memberEntities at member
  split at member
  · cases member
  · next names listed =>
    rcases mem_addEntities member with none | ⟨name, inside, same⟩
    · cases none
    · exact ⟨name, Disk.isEntryName_of_list proper listed name inside, same⟩

theorem isDeep_of_mem_folderNames (proper : tree.disk.root.Proper) {m : ModuleDoc} {depth : Nat}
    {dotted : String} (deep : IsDeep depth m.name)
    (member : dotted ∈ folderNames (tree.memberEntities m)) : IsDeep (depth + 1) dotted := by
  obtain ⟨⟨key, e⟩, inside, folder⟩ := List.mem_filterMap.mp member
  cases e with
  | module inner =>
    obtain ⟨name, entry, found⟩ := moduleDoc?_of_mem_memberEntities proper inside
    simp only [Option.ite_none_left_eq_some, Option.some.injEq] at folder
    rw [← folder.2, (moduleDoc?_eq_some found).1]
    exact deep.joinName entry
  | _ => simp at folder

theorem isDeep_of_entityInLevel (proper : tree.disk.root.Proper) {packages : List String}
    {last : String} {depth : Nat} {folders inner : List String}
    (deep : ∀ dotted ∈ folders, IsDeep depth dotted)
    (level : tree.entityInLevel packages last folders = .inr inner) :
    ∀ dotted ∈ inner, IsDeep (depth + 1) dotted ∧ depth < tree.disk.root.height := by
  induction folders generalizing inner with
  | nil =>
    cases level
    simp
  | cons folder r ih =>
    have rest := fun d member => deep d (List.mem_cons_of_mem folder member)
    unfold entityInLevel at level
    split at level
    · exact ih rest level
    · next m found =>
      split at level
      · cases level
      · split at level
        · cases level
        · next more later =>
          cases level
          obtain ⟨rfl, valid, there⟩ := moduleDoc?_eq_some found
          have here := deep folder List.mem_cons_self
          intro dotted member
          rcases List.mem_append.mp member with inside | below
          · exact ⟨isDeep_of_mem_folderNames proper here inside,
              here.2.trans_lt (length_trail_lt_height here.1 valid there)⟩
          · exact ih rest later dotted below

theorem entityInLevels_cons (tree : SourceTree) (packages : List String) (last : String) (n : Nat)
    (folder : String) (r : List String) :
    tree.entityInLevels packages last (n + 1) (folder :: r) =
      match tree.entityInLevel packages last (folder :: r) with
      | .inl found => some found
      | .inr inner => tree.entityInLevels packages last n inner :=
  rfl

/-- Once the levels are as many as the disk is high, more of them find nothing more. -/
theorem entityInLevels_eq (proper : tree.disk.root.Proper) (packages : List String) (last : String)
    {fuel depth : Nat} (more : Nat) {folders : List String}
    (deep : ∀ dotted ∈ folders, IsDeep depth dotted) (enough : tree.disk.root.height ≤ depth + fuel) :
    tree.entityInLevels packages last (fuel + more + 1) folders =
      tree.entityInLevels packages last (fuel + 1) folders := by
  induction fuel generalizing depth folders with
  | zero =>
    cases folders with
    | nil => rfl
    | cons folder r =>
      rw [entityInLevels_cons, entityInLevels_cons]
      split
      · rfl
      · next inner level =>
        have none : inner = [] := by
          by_contra filled
          obtain ⟨d, member⟩ := List.exists_mem_of_ne_nil inner filled
          have low := (isDeep_of_entityInLevel proper deep level d member).2
          omega
        subst none
        cases more <;> rfl
  | succ fuel ih =>
    cases folders with
    | nil => rfl
    | cons folder r =>
      rw [Nat.add_right_comm fuel 1 more, entityInLevels_cons, entityInLevels_cons]
      split
      · rfl
      · next inner level =>
        exact ih (fun d member => (isDeep_of_entityInLevel proper deep level d member).1) (by omega)

end SourceTree

end MatlabOutline
