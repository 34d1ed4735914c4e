import MatlabOutline.Proofs.Catalog.Members

/-!
The search for a name that code uses, level by level. What stands in a folder that plain folders
lead to is found there, or in a folder that is no deeper.
-/

namespace MatlabOutline

namespace Table

variable {α : Type}

theorem get?_of_mem {t : Table α} (distinct : t.keys.Nodup) {key : String} {a : α}
    (member : (key, a) ∈ t.entries) : t.get? key = some a := by
  obtain ⟨l⟩ := t
  simp only [keys, get?] at distinct member ⊢
  induction l with
  | nil => cases member
  | cons e l ih =>
    obtain ⟨absent, rest⟩ := List.nodup_cons.mp distinct
    rw [lookup]
    rcases List.mem_cons.mp member with rfl | later
    · exact if_pos rfl
    · have other : e.1 ≠ key := fun same => absent (same ▸ List.mem_map_of_mem later)
      rw [if_neg other]
      exact ih rest later

theorem nodup_insert {t : Table α} (distinct : t.keys.Nodup) (key : String) (a : α) :
    (t.insert key a).keys.Nodup := by
  rw [keys_insert]
  split
  · exact distinct
  · next absent =>
    rw [List.nodup_append']
    exact ⟨distinct, List.nodup_singleton key, by simpa using absent⟩

end Table

/-- The key of a folder in which code finds names without a prefix. -/
structure IsPlain (key : String) : Prop where
  noPackage : key.toList.head? ≠ some '+'
  notPrivate : key ≠ "private"

namespace SourceTree

variable {tree : SourceTree} {m : ModuleDoc}

theorem nodup_keys_addEntities {t : Table Entity} (distinct : t.keys.Nodup) (names : List String) :
    (tree.addEntities m t names).keys.Nodup := by
  induction names generalizing t with
  | nil => exact distinct
  | cons name r ih =>
    unfold addEntities
    split
    · split
      · exact ih distinct
      · exact ih (Table.nodup_insert distinct _ _)
    · exact ih distinct

/-- No two members of a module have the same key. -/
theorem nodup_keys_memberEntities (tree : SourceTree) (m : ModuleDoc) :
    (tree.memberEntities m).keys.Nodup := by
  unfold memberEntities
  split
  · exact List.nodup_nil
  · exact @nodup_keys_addEntities tree m {} List.nodup_nil _

/-- The modules in plain folders among the members of a module, under their keys. -/
def plainMembers (t : Table Entity) : List (String × ModuleDoc) :=
  t.entries.filterMap fun (key, e) =>
    match e with
    | .module m => if key.toList.head? = some '+' || key = "private" then none else some (key, m)
    | _ => none

theorem map_name_plainMembers (t : Table Entity) : (plainMembers t).map (·.2.name) = folderNames t := by
  rw [plainMembers, List.map_filterMap, folderNames]
  refine List.filterMap_congr fun entry _ => ?_
  rcases entry with ⟨key, e⟩
  rcases e with inner | _ | _ | _ | _
  case module =>
    dsimp only
    split <;> rfl
  all_goals rfl

theorem mem_plainMembers {key : String} {inner : ModuleDoc} :
    (key, inner) ∈ plainMembers (tree.memberEntities m) ↔
      IsPlain key ∧ (tree.memberEntities m).get? key = some (.module inner) := by
  rw [plainMembers, List.mem_filterMap]
  constructor
  · rintro ⟨⟨key', e⟩, member, named⟩
    cases e with
    | module inner' =>
      simp only [Option.ite_none_left_eq_some, Option.some.injEq, Prod.mk.injEq, Bool.or_eq_true,
        decide_eq_true_eq, not_or] at named
      obtain ⟨plain, rfl, rfl⟩ := named
      exact ⟨⟨plain.1, plain.2⟩, Table.get?_of_mem (nodup_keys_memberEntities tree m) member⟩
    | _ => cases named
  · rintro ⟨plain, found⟩
    exact ⟨_, Table.mem_entries_of_get? found, by simp [plain.noPackage, plain.notPrivate]⟩

theorem mem_folderNames {dotted : String} :
    dotted ∈ folderNames (tree.memberEntities m) ↔ ∃ key inner, IsPlain key ∧
      (tree.memberEntities m).get? key = some (.module inner) ∧ inner.name = dotted := by
  simp only [← map_name_plainMembers, List.mem_map, Prod.exists, mem_plainMembers, and_assoc]

/-- The module that keys lead to from `m`, through modules alone. -/
def moduleBelow (tree : SourceTree) (m : ModuleDoc) : List String → Option ModuleDoc
  | [] => some m
  | key :: r =>
    match (tree.memberEntities m).get? key with
    | some (.module inner) => tree.moduleBelow inner r
    | _ => none

theorem moduleBelow_cons {key : String} {r : List String} {o : ModuleDoc}
    (below : tree.moduleBelow m (key :: r) = some o) :
    ∃ inner, (tree.memberEntities m).get? key = some (.module inner) ∧
      tree.moduleBelow inner r = some o := by
  unfold moduleBelow at below
  split at below
  · next inner found => exact ⟨inner, found, below⟩
  · cases below

theorem moduleBelow_append (keys more : List String) :
    tree.moduleBelow m (keys ++ more) = (tree.moduleBelow m keys).bind (tree.moduleBelow · more) := by
  induction keys generalizing m with
  | nil => rfl
  | cons key r ih =>
    rw [List.cons_append, moduleBelow, moduleBelow]
    split
    · exact ih
    · rfl

theorem moduleDoc?_of_get? (proper : tree.disk.root.Proper) {key : String} {inner : ModuleDoc}
    (found : (tree.memberEntities m).get? key = some (.module inner)) :
    inner.name = joinName m.name key ∧ tree.moduleDoc? inner.name = some inner := by
  have there := (hasFolder_of_get? proper found).2.2.2
  have name : inner.name = joinName m.name key := congrArg ModuleDoc.name (moduleDoc?_eq_some there).1
  exact ⟨name, name ▸ there⟩

/-- The name of a module is that of the way to it. -/
theorem name_of_moduleBelow (proper : tree.disk.root.Proper) {keys : List String} {o : ModuleDoc}
    (there : tree.moduleDoc? m.name = some m) (below : tree.moduleBelow m keys = some o) :
    o.name = keys.foldl joinName m.name ∧ tree.moduleDoc? o.name = some o := by
  induction keys generalizing m with
  | nil =>
    cases below
    exact ⟨rfl, there⟩
  | cons key r ih =>
    obtain ⟨inner, found, later⟩ := moduleBelow_cons below
    obtain ⟨name, there'⟩ := moduleDoc?_of_get? proper found
    rw [List.foldl_cons, ← name]
    exact ih there' later

theorem trail_of_moduleBelow (proper : tree.disk.root.Proper) (undotted : tree.Undotted)
    {keys : List String} {o : ModuleDoc} (flat : HasNoSlash m.name)
    (there : tree.moduleDoc? m.name = some m) (below : tree.moduleBelow m keys = some o) :
    HasNoSlash o.name ∧ DottedName.trail o.name = DottedName.trail m.name ++ keys ∧
      ∀ key ∈ keys, key ≠ "" ∧ ¬IsMarked key ∧ '.' ∉ key.toList := by
  induction keys generalizing m with
  | nil =>
    cases below
    exact ⟨flat, by simp, by simp⟩
  | cons key r ih =>
    obtain ⟨inner, found, later⟩ := moduleBelow_cons below
    obtain ⟨name, there'⟩ := moduleDoc?_of_get? proper found
    obtain ⟨entry, free, -⟩ := hasFolder_of_get? proper found
    obtain ⟨plain, whole⟩ := undotted.flat_key proper flat there found
    obtain ⟨flat', trail, rest⟩ := ih (name ▸ flat.joinName whole) there' later
    refine ⟨flat', ?_, List.forall_mem_cons.mpr ⟨⟨entry.filled, free, plain⟩, rest⟩⟩
    rw [trail, name, DottedName.trail_joinName_of_plain plain (absurd · entry.filled),
      List.append_assoc, List.singleton_append]

/-- A search goes by the parts of a name, level by level from the root. -/
theorem codeEntity_of_dotted {name : String} (dotted : isDottedIdentifier name = true) :
    tree.codeEntity name = tree.entityInLevels (DottedName.trail (DottedName.splitLast name).1)
      (DottedName.splitLast name).2 (tree.disk.root.height + 1) [""] :=
  if_pos dotted

section Search

variable {packages : List String} {last : String}

/-- What the folder `dotted`, if there is one, means by `packages` and `last`. -/
def heldIn (tree : SourceTree) (packages : List String) (last dotted : String) : Option Entity :=
  (tree.moduleDoc? dotted).bind fun _ => tree.entityIn dotted packages last

/-- The plain folders in the folder `dotted`. -/
def innerFolders (tree : SourceTree) (dotted : String) : List String :=
  (tree.moduleDoc? dotted).elim [] fun m => folderNames (tree.memberEntities m)

/-- A level comes to the first folder that has the name, and else to the folders of the next. -/
theorem entityInLevel_eq (tree : SourceTree) (packages : List String) (last : String)
    (folders : List String) :
    tree.entityInLevel packages last folders =
      match folders.findSome? (tree.heldIn packages last) with
      | some e => .inl e
      | none => .inr (folders.flatMap tree.innerFolders) := by
  induction folders with
  | nil => rfl
  | cons folder r ih =>
    rw [entityInLevel, ih, List.findSome?_cons, List.flatMap_cons]
    rcases there : tree.moduleDoc? folder with _ | m
    · simp [heldIn, innerFolders, there]
    · rcases held : tree.entityIn folder packages last with _ | e
      · simp only [heldIn, innerFolders, there, held, Option.bind_some, Option.elim_some]
        cases r.findSome? (tree.heldIn packages last) <;> rfl
      · simp [heldIn, there, held]

theorem entityInLevels_succ (tree : SourceTree) (packages : List String) (last : String) (n : Nat)
    (folders : List String) :
    tree.entityInLevels packages last (n + 1) folders =
      match folders.findSome? (tree.heldIn packages last) with
      | some e => some e
      | none => tree.entityInLevels packages last n (folders.flatMap tree.innerFolders) := by
  cases folders with
  | nil => cases n <;> rfl
  | cons folder r =>
    rw [entityInLevels_cons, entityInLevel_eq]
    cases (folder :: r).findSome? (tree.heldIn packages last) <;> rfl

theorem exists_of_heldIn {folders : List String} {e : Entity}
    (found : folders.findSome? (tree.heldIn packages last) = some e) :
    ∃ m, m.name ∈ folders ∧ tree.moduleDoc? m.name = some m ∧
      tree.entityIn m.name packages last = some e := by
  obtain ⟨folder, inside, held⟩ := List.exists_of_findSome?_eq_some found
  obtain ⟨m, there, held⟩ := Option.bind_eq_some_iff.mp held
  have name : m.name = folder := congrArg ModuleDoc.name (moduleDoc?_eq_some there).1
  exact ⟨m, by rwa [name], by rwa [name], by rwa [name]⟩

theorem mem_innerFolders {folders : List String} {dotted : String} :
    dotted ∈ folders.flatMap tree.innerFolders ↔ ∃ m key inner, m.name ∈ folders ∧
      tree.moduleDoc? m.name = some m ∧ IsPlain key ∧
      (tree.memberEntities m).get? key = some (.module inner) ∧ inner.name = dotted := by
  rw [List.mem_flatMap]
  constructor
  · rintro ⟨folder, inside, member⟩
    rcases there : tree.moduleDoc? folder with _ | m
    · simp [innerFolders, there] at member
    · rw [innerFolders, there, Option.elim_some, mem_folderNames] at member
      obtain ⟨key, inner, plain, found, rfl⟩ := member
      have name : m.name = folder := congrArg ModuleDoc.name (moduleDoc?_eq_some there).1
      exact ⟨m, key, inner, by rwa [name], by rwa [name], plain, found, rfl⟩
  · rintro ⟨m, key, inner, inside, there, plain, found, rfl⟩
    refine ⟨m.name, inside, ?_⟩
    rw [innerFolders, there, Option.elim_some, mem_folderNames]
    exact ⟨key, inner, plain, found, rfl⟩

/-- What stands in a folder that plain folders lead to from one of `folders` is found there, or in a
folder that is no deeper. -/
theorem exists_of_entityInLevels (proper : tree.disk.root.Proper) {depth : Nat} {folders : List String}
    {ps : List String} {o : ModuleDoc} (start : m.name ∈ folders)
    (there : tree.moduleDoc? m.name = some m) (plain : ∀ p ∈ ps, IsPlain p)
    (below : tree.moduleBelow m ps = some o) (holds : (tree.entityIn o.name packages last).isSome)
    (deep : ps.length < depth) :
    ∃ m' ps' o' e, m'.name ∈ folders ∧ tree.moduleDoc? m'.name = some m' ∧ ps'.length ≤ ps.length ∧
      (∀ p ∈ ps', IsPlain p) ∧ tree.moduleBelow m' ps' = some o' ∧
      tree.entityIn o'.name packages last = some e ∧
      tree.entityInLevels packages last depth folders = some e := by
  -- The search goes down one level for each plain folder on the way, unless it ends before.
  induction ps generalizing folders m depth with
  | nil =>
    cases below
    obtain ⟨n, rfl⟩ := Nat.exists_eq_succ_of_ne_zero (Nat.ne_of_gt deep)
    have counts : (folders.findSome? (tree.heldIn packages last)).isSome := by
      rw [List.findSome?_isSome_iff]
      exact ⟨o.name, start, by simpa [heldIn, there] using holds⟩
    obtain ⟨e, found⟩ := Option.isSome_iff_exists.mp counts
    obtain ⟨m', inside, there', held⟩ := exists_of_heldIn found
    refine ⟨m', [], m', e, inside, there', le_rfl, by simp, rfl, held, ?_⟩
    rw [Nat.succ_eq_add_one, entityInLevels_succ, found]
  | cons p r ih =>
    obtain ⟨n, rfl⟩ := Nat.exists_eq_succ_of_ne_zero (Nat.ne_of_gt (Nat.zero_lt_of_lt deep))
    rw [Nat.succ_eq_add_one, entityInLevels_succ]
    rcases found : folders.findSome? (tree.heldIn packages last) with _ | e
    · obtain ⟨first, rest⟩ := List.forall_mem_cons.mp plain
      obtain ⟨inner, member, later⟩ := moduleBelow_cons below
      have next : inner.name ∈ folders.flatMap tree.innerFolders :=
        mem_innerFolders.mpr ⟨m, p, inner, start, there, first, member, rfl⟩
      obtain ⟨m₁, ps', o', e, inside, there₁, length, plain', below', held, run⟩ :=
        ih next (moduleDoc?_of_get? proper member).2 rest later (Nat.lt_of_succ_lt_succ deep)
      obtain ⟨m', key, m₂, inside', there', first', member', name⟩ := mem_innerFolders.mp inside
      have same : m₂ = m₁ := by
        have there₂ := (moduleDoc?_of_get? proper member').2
        rw [name, there₁] at there₂
        exact (Option.some.inj there₂).symm
      refine ⟨m', key :: ps', o', e, inside', there', Nat.succ_le_succ length,
        List.forall_mem_cons.mpr ⟨first', plain'⟩, ?_, held, run⟩
      rw [moduleBelow, member', same]
      exact below'
    · obtain ⟨m', inside, there', held⟩ := exists_of_heldIn found
      exact ⟨m', [], m', e, inside, there', Nat.zero_le _, by simp, rfl, held, rfl⟩

end Search

end SourceTree

end MatlabOutline
