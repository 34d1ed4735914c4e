import MatlabOutline.Proofs.Catalog.Levels

/-!
Short names: the name by which code refers to a member of a package leads back to a member of that
key, in a package of the same name.
-/

namespace MatlabOutline

open Catalog Law

namespace DottedName

theorem segments_ofSegments {parts : List (List Char)} (filled : parts ≠ [])
    (whole : ∀ part ∈ parts, '.' ∉ part) : segments (ofSegments parts) = parts := by
  rw [segments, ofSegments, String.toList_ofList, Text.splitAt_joinWith filled whole]

theorem trail_ofSegments {parts : List (List Char)} (filled : ∀ part ∈ parts, part ≠ [])
    (whole : ∀ part ∈ parts, '.' ∉ part) :
    trail (ofSegments parts) = parts.map String.ofList := by
  rcases parts with _ | ⟨p, ps⟩
  · rfl
  · have cut := segments_ofSegments (List.cons_ne_nil p ps) whole
    rw [trail, if_neg, cut]
    intro empty
    rw [String.isEmpty_iff.mp empty] at cut
    cases cut
    exact filled [] List.mem_cons_self rfl

theorem splitLast_ofSegments {parts : List (List Char)} {last : List Char}
    (whole : ∀ part ∈ parts ++ [last], '.' ∉ part) :
    splitLast (ofSegments (parts ++ [last])) = (ofSegments parts, String.ofList last) := by
  simp only [splitLast, segments_ofSegments (by simp) whole, List.reverse_concat, List.reverse_reverse]

/-- A plain folder that something follows starts the name over. -/
theorem visibleParts_folder {p : List Char} (plain : p.head? ≠ some '+' ∧ p.head? ≠ some '@')
    {rest : List (List Char)} (filled : rest ≠ []) (parts : List (List Char)) (inClass : Bool) :
    visibleParts parts inClass (p :: rest) = visibleParts [] false rest := by
  rw [visibleParts]
  · rintro package rfl
    exact plain.1 rfl
  · rintro cls rfl
    exact plain.2 rfl
  · exact filled

theorem visibleParts_plain {ps rest : List (List Char)} (filled : rest ≠ [])
    (plain : ∀ p ∈ ps, p.head? ≠ some '+' ∧ p.head? ≠ some '@') :
    visibleParts [] false (ps ++ rest) = visibleParts [] false rest := by
  induction ps with
  | nil => rfl
  | cons p ps ih =>
    obtain ⟨first, later⟩ := List.forall_mem_cons.mp plain
    rw [List.cons_append, visibleParts_folder first (by simp [filled]), ih later]

theorem visibleParts_packages (parts qs rest : List (List Char)) :
    visibleParts parts false (qs.map ('+' :: ·) ++ rest) = visibleParts (parts ++ qs) false rest := by
  induction qs generalizing parts with
  | nil => simp
  | cons q qs ih =>
    rw [List.map_cons, List.cons_append, visibleParts, ih, List.append_assoc, List.singleton_append]

theorem visibleParts_last (parts : List (List Char)) {last : List Char}
    (word : isIdentifierChars last = true) : visibleParts parts false [last] = parts ++ [last] := by
  rcases last with _ | ⟨c, r⟩
  · cases word
  · rw [isIdentifierChars, Bool.and_eq_true] at word
    rw [visibleParts, Bool.false_and, if_neg (by simp)]
    · rintro package ⟨⟩
      exact absurd word.1 (by decide)
    · rintro cls ⟨⟩
      exact absurd word.1 (by decide)

/-- The short name of a member of a package has the names of the packages and the key. -/
theorem shortest_joinName {dotted key : String} {ps qs : List String}
    (way : trail dotted = ps ++ qs.map ("+" ++ ·))
    (plain : ∀ p ∈ ps, p.toList.head? ≠ some '+' ∧ p.toList.head? ≠ some '@')
    (word : isIdentifier key = true) :
    shortest (joinName dotted key) = ofSegments (qs.map String.toList ++ [key.toList]) := by
  have marked : (qs.map ("+" ++ ·)).map String.toList = (qs.map String.toList).map ('+' :: ·) := by
    simp
  rw [shortest, segments_joinName dotted (point_not_mem_of_identifier word), way, List.map_append,
    List.append_assoc, visibleParts_plain (by simp) (by simpa using plain), marked,
    visibleParts_packages, List.nil_append, visibleParts_last _ word]

end DottedName

namespace SourceTree

/-- Goes from an item to the member at each key in turn. -/
def walk (tree : SourceTree) (item : Item) : List String → CatalogM (Option Item)
  | [] => return some item
  | key :: r => do
    match ← tree.get? item key with
    | some inner => tree.walk inner r
    | none => return none

end SourceTree

namespace Session

variable {tree : SourceTree} {given : List Item} {c : Catalog} {item x : Item}

/-- The items on a walk are at hand after it, and the walk to a module goes through modules. -/
theorem exists_walk (proper : tree.disk.root.Proper) (session : Session tree Call.IsFlat [] {} given c)
    (inside : item ∈ given) {keys : List String}
    (reached : ((tree.walk item keys).run c).1 = some x) :
    ∃ given', Session tree Call.IsFlat [] {} given' ((tree.walk item keys).run c).2 ∧
      given ⊆ given' ∧ x ∈ given' ∧ ∀ o, x.module? = some o →
        ∃ m, item.module? = some m ∧ tree.moduleBelow m keys = some o := by
  induction keys generalizing item given c with
  | nil =>
    cases reached
    exact ⟨given, session, List.Subset.refl _, inside, fun o isModule => ⟨o, isModule, rfl⟩⟩
  | cons key r ih =>
    have after := session.call (.get item key) trivial (by simpa [Call.uses] using inside)
    rw [SourceTree.walk, run_bind] at reached ⊢
    rcases found : ((tree.get? item key).run c).1 with _ | inner
    · rw [found] at reached
      cases reached
    · rw [found] at reached
      obtain ⟨given', session', kept, member, below⟩ := ih after (mem_of_get? found given) reached
      refine ⟨given', session', fun y old => kept (List.mem_append_left _ old), member,
        fun o isModule => ?_⟩
      obtain ⟨mi, isInner, later⟩ := below o isModule
      rcases outer : item.module? with _ | m
      · simp [SourceTree.get?, SourceTree.members, outer] at found
      · have means := session.entity_of_get? proper inside outer key
        rw [found, Option.map_some, Item.entity_of_module? isInner] at means
        exact ⟨m, rfl, by rw [SourceTree.moduleBelow, ← means]; exact later⟩

theorem exists_of_moduleBelow (proper : tree.disk.root.Proper)
    (session : Session tree Call.IsFlat [] {} given c) (inside : item ∈ given) {m o : ModuleDoc}
    (isModule : item.module? = some m) {keys : List String} (below : tree.moduleBelow m keys = some o) :
    ∃ x, ((tree.walk item keys).run c).1 = some x ∧ x.module? = some o := by
  induction keys generalizing item given c m with
  | nil =>
    cases below
    exact ⟨item, rfl, isModule⟩
  | cons key r ih =>
    obtain ⟨mi, found, later⟩ := SourceTree.moduleBelow_cons below
    have after := session.call (.get item key) trivial (by simpa [Call.uses] using inside)
    rw [← session.entity_of_get? proper inside isModule key] at found
    obtain ⟨inner, here, entity⟩ := Option.map_eq_some_iff.mp found
    obtain ⟨x, reached, isX⟩ := ih after (mem_of_get? here given) (by rw [Item.module?, entity]) later
    refine ⟨x, ?_, isX⟩
    rw [SourceTree.walk, run_bind, here]
    exact reached

end Session

namespace SourceTree

section Trails

variable {tree : SourceTree} {m m' : ModuleDoc} {key : String}

theorem entityIn_eq_some {outer last : String} {packages : List String} {e : Entity}
    (found : tree.entityIn outer packages last = some e) :
    ∃ m, tree.moduleDoc? (packageName outer packages) = some m ∧
      (e.isModule = false ∧ (tree.memberEntities m).get? last = some e ∨
        e.isModule = true ∧ (tree.memberEntities m).get? ("+" ++ last) = some e) := by
  unfold entityIn at found
  split at found
  · cases found
  next m there =>
  refine ⟨m, there, ?_⟩
  split at found
  · next plain =>
    cases found
    obtain ⟨here, other⟩ := Option.filter_eq_some_iff.mp plain
    exact .inl ⟨by simpa using other, here⟩
  · obtain ⟨here, package⟩ := Option.filter_eq_some_iff.mp found
    exact .inr ⟨package, here⟩

/-- What an entity is a member of, under its key, can be told from it. -/
theorem name_eq_of_get? (proper : tree.disk.root.Proper) {e : Entity}
    (found : (tree.memberEntities m).get? key = some e)
    (found' : (tree.memberEntities m').get? key = some e) : m.name = m'.name := by
  have scope {m : ModuleDoc} (found : (tree.memberEntities m).get? key = some e)
      (other : e.isModule = false) : e.scope = m.name := by
    obtain ⟨names, name, listed, inside, declared⟩ := exists_entry_of_get? found
    rcases memberEntity_eq_some (Disk.isEntryName_of_list proper listed name inside) declared with
      ⟨_, rfl, _⟩ | ⟨within, _⟩ | ⟨within, _⟩
    · cases other
    · exact within.scope_eq
    · exact within.scope_eq
  cases e with
  | module inner =>
    have filled := (hasFolder_of_get? proper found).1.filled
    have same := (moduleDoc?_of_get? proper found).1.symm.trans (moduleDoc?_of_get? proper found').1
    have trails := congrArg DottedName.trail same
    rw [DottedName.trail_joinName filled, DottedName.trail_joinName filled,
      List.append_cancel_right_eq] at trails
    exact DottedName.trail_injective trails
  | _ => exact (scope found rfl).symm.trans (scope found' rfl)

end Trails

section Members

variable {tree : SourceTree} {given : List Item} {c : Catalog} {m₀ m : ModuleDoc}
  {ps qs : List String} {key : String}

/-- What a listed item says of the module that lists it. -/
theorem exists_of_lists {ids : List Entity} (kept : tree.faithful.Kept ids c) {dotted : String} {x : Item}
    (listed : c.Lists dotted key x) :
    ∃ (home : Item) (m : ModuleDoc) (t : Table Item), tree.moduleDoc? dotted = some m ∧
      t.map Item.entity = tree.memberEntities m ∧ t.get? key = some x ∧
      (tree.module dotted).run c = (some home, c) ∧ ∀ k, (tree.get? home k).run c = (t.get? k, c) := by
  obtain ⟨home, t, there, members, found⟩ := listed
  have shown : Shows ids ((tree.moduleDoc? dotted).map .module) (some home) := kept.results _ there
  obtain ⟨recorded, means⟩ := shown.eq_some
  obtain ⟨m, means, entity⟩ := Option.map_eq_some_iff.mp means
  obtain ⟨m', here, table⟩ := kept.results _ members
  rw [recorded, ← entity] at here
  cases here
  have isModule : home.module? = some m := by rw [Item.module?, ← entity]
  exact ⟨home, m, t, means, table.2, found, run_module_of_holds there, run_get?_of_holds isModule members⟩

/-- What the catalog has found is in the package in which the search finds it. -/
theorem finds_of_entityIn (proper : tree.disk.root.Proper) {ids : List Entity} (kept : tree.faithful.Kept ids c)
    {outer outer' : String} {r : Item} (held : tree.entityIn outer qs key = some r.entity)
    (finds : c.Finds outer' qs key r) : c.Finds outer qs key r := by
  obtain ⟨m, there, kind⟩ := entityIn_eq_some held
  have name : m.name = packageName outer qs := congrArg ModuleDoc.name (moduleDoc?_eq_some there).1
  -- What was found tells the module that it is a member of.
  have home {k : String} (member : (tree.memberEntities m).get? k = some r.entity)
      (listed : c.Lists (packageName outer' qs) k r) : c.Lists (packageName outer qs) k r := by
    obtain ⟨_, m', t, there', members, found, -⟩ := exists_of_lists kept listed
    have name' : m'.name = packageName outer' qs := congrArg ModuleDoc.name (moduleDoc?_eq_some there').1
    have member' : (tree.memberEntities m').get? k = some r.entity := by
      rw [← members, Table.get?_map, found, Option.map_some]
    have same := name_eq_of_get? proper member member'
    rw [name, name'] at same
    rwa [same]
  rw [← Item.isSome_module?] at kind
  rcases finds with ⟨other, listed⟩ | ⟨package, listed⟩
  · rcases kind with ⟨-, member⟩ | ⟨package, -⟩
    · exact .inl ⟨other, home member listed⟩
    · simp [other] at package
  · rcases kind with ⟨other, -⟩ | ⟨-, member⟩
    · simp [package] at other
    · exact .inr ⟨package, home member listed⟩

theorem exists_home_of_finds (proper : tree.disk.root.Proper)
    (session : Session tree Call.IsFlat [] {} given c) {outer outer' : String} {r : Item}
    (held : tree.entityIn outer qs key = some r.entity) (finds : c.Finds outer' qs key r) :
    ∃ home, (tree.module (packageName outer qs)).run c = (some home, c) ∧
      (r.module? = none ∧ (tree.get? home key).run c = (some r, c) ∨
        r.module?.isSome ∧ (tree.get? home ("+" ++ key)).run c = (some r, c)) := by
  obtain ⟨ids, kept, -⟩ := session.exists_faithful proper
  rcases finds_of_entityIn proper kept held finds with ⟨other, listed⟩ | ⟨package, listed⟩
  · obtain ⟨home, _, t, -, -, found, run, get⟩ := exists_of_lists kept listed
    exact ⟨home, run, .inl ⟨other, by rw [get, found]⟩⟩
  · obtain ⟨home, _, t, -, -, found, run, get⟩ := exists_of_lists kept listed
    exact ⟨home, run, .inr ⟨package, by rw [get, found]⟩⟩

/-- What is found by the name that code uses, and is not a path, has been listed. -/
theorem finds_of_resolve (session : Session tree Call.IsFlat [] {} given c) {name : String}
    (flat : HasNoSlash name) (nothing : ((tree.entity name).run c).1 = none) {r : Item}
    (found : ((tree.resolve name none).run c).1 = some r) :
    ∃ outer, ((tree.resolve name none).run c).2.Finds outer
      (DottedName.trail (DottedName.splitLast name).1) (DottedName.splitLast name).2 r := by
  have run : (tree.resolve name none).run c = (tree.codeName name).run ((tree.entity name).run c).2 := by
    show ((tree.entity name >>= _).run c) = _
    rw [run_bind, nothing]
  have searched := session.call (.entity name) flat (by simp [Call.uses])
  have links := (@links_codeName tree _ name _ (.refl _) searched.linked.1).2.2
  rw [run] at found ⊢
  exact (links r found).2

/-- The names in a short name, and that a search for it goes by them. -/
theorem codeEntity_short (words : ∀ q ∈ qs, isIdentifier q = true) (word : isIdentifier key = true) :
    let short := DottedName.ofSegments (qs.map String.toList ++ [key.toList])
    isDottedIdentifier short = true ∧ DottedName.trail (DottedName.splitLast short).1 = qs ∧
      (DottedName.splitLast short).2 = key ∧
      tree.codeEntity short = tree.entityInLevels qs key (tree.disk.root.height + 1) [""] := by
  intro short
  have parts : ∀ part ∈ qs.map String.toList ++ [key.toList], isIdentifierChars part = true := by
    intro part member
    rcases List.mem_append.mp member with package | last
    · obtain ⟨q, inside, rfl⟩ := List.mem_map.mp package
      exact words q inside
    · rw [List.mem_singleton.mp last]
      exact word
  have whole := fun part member => point_not_mem_of_identifier (parts part member)
  have filled : ∀ part ∈ qs.map String.toList, part ≠ [] := by
    rintro part member rfl
    cases parts [] (List.mem_append_left _ member)
  have split := DottedName.splitLast_ofSegments whole
  have packages : DottedName.trail (DottedName.splitLast short).1 = qs := by
    rw [split, DottedName.trail_ofSegments filled fun part member => whole part (List.mem_append_left _ member)]
    simp [Function.comp_def]
  have last : (DottedName.splitLast short).2 = key := by rw [split, String.ofList_toList]
  have dotted : isDottedIdentifier short = true := by
    show (DottedName.segments short).all isIdentifierChars = true
    rw [DottedName.segments_ofSegments (by simp) whole]
    exact List.all_eq_true.mpr parts
  exact ⟨dotted, packages, last, by rw [codeEntity_of_dotted dotted, packages, last]⟩

/-- What the search for a short name comes to: an entity in a package of the same name, below plain
folders that are no deeper. -/
theorem codeEntity_of_moduleBelow (proper : tree.disk.root.Proper) (undotted : tree.Undotted)
    (there : tree.moduleDoc? m₀.name = some m₀) (unnamed : m₀.name = "") (plain : ∀ p ∈ ps, IsPlain p)
    (words : ∀ q ∈ qs, isIdentifier q = true)
    (below : tree.moduleBelow m₀ (ps ++ qs.map ("+" ++ ·)) = some m) (word : isIdentifier key = true)
    {e : Entity} (member : (tree.memberEntities m).get? key = some e) (other : e.isModule = false) :
    DottedName.shortest (joinName m.name key) =
        DottedName.ofSegments (qs.map String.toList ++ [key.toList]) ∧
      ∃ ps' o e, ps'.length ≤ ps.length ∧ (∀ p ∈ ps', IsPlain p) ∧ tree.moduleBelow m₀ ps' = some o ∧
        tree.entityIn o.name qs key = some e ∧
        tree.codeEntity (DottedName.shortest (joinName m.name key)) = some e := by
  have flat : HasNoSlash m₀.name := by simp [unnamed, HasNoSlash]
  have root : DottedName.trail m₀.name = [] := by simp [unnamed, DottedName.trail]
  obtain ⟨-, way, free⟩ := trail_of_moduleBelow proper undotted flat there below
  rw [root, List.nil_append] at way
  have short : DottedName.shortest (joinName m.name key) =
      DottedName.ofSegments (qs.map String.toList ++ [key.toList]) :=
    DottedName.shortest_joinName way (fun p inside =>
      ⟨(plain p inside).noPackage, (free p (List.mem_append_left _ inside)).2.1⟩) word
  rw [moduleBelow_append] at below
  obtain ⟨o, outer, inner⟩ := Option.bind_eq_some_iff.mp below
  obtain ⟨flat', way', -⟩ := trail_of_moduleBelow proper undotted flat there outer
  obtain ⟨-, there'⟩ := name_of_moduleBelow proper there outer
  obtain ⟨name, there''⟩ := name_of_moduleBelow proper there' inner
  have package : packageName o.name qs = m.name := by rw [name, packageName, List.foldl_map]
  have held : tree.entityIn o.name qs key = some e := by
    simp [entityIn, package, there'', member, other, Option.filter]
  have low : ps.length < tree.disk.root.height + 1 := by
    obtain ⟨-, valid, folder⟩ := moduleDoc?_eq_some there'
    have deep := length_trail_lt_height flat' valid folder
    rw [way', root, List.nil_append] at deep
    exact Nat.lt_succ_of_lt deep
  obtain ⟨m', ps', o', e', first, here, length, plain', below', held', found⟩ :=
    exists_of_entityInLevels proper (List.mem_singleton.mpr unnamed) there plain outer
      (Option.isSome_of_eq_some held) low
  have same : m' = m₀ := by
    rw [List.mem_singleton.mp first, ← unnamed, there] at here
    exact (Option.some.inj here).symm
  rw [same] at below'
  refine ⟨short, ps', o', e', length, plain', below', held', ?_⟩
  rw [short, (codeEntity_short words word).2.2.2, found]

end Members

end SourceTree

/-- The short name of a member can be looked up again. The member stands in a package that the
packages `qs` lead to below the plain folders `ps`; if its short name is not the path of something
else, then it leads to a member of that key, or to a package of that name, in a package `qs` below
plain folders that are no deeper. -/
theorem resolve_shortest {tree : SourceTree} (proper : tree.disk.root.Proper) (undotted : tree.Undotted)
    {given : List Item} {c c₁ c₂ : Catalog} (session : Session tree Call.IsFlat [] {} given c)
    {root : Item} (atHand : root ∈ given) {m₀ : ModuleDoc} (isRoot : root.module? = some m₀)
    (unnamed : m₀.name = "") {ps qs : List String} (plain : ∀ p ∈ ps, IsPlain p)
    (words : ∀ q ∈ qs, isIdentifier q = true) {item : Item}
    (reached : (tree.walk root (ps ++ qs.map ("+" ++ ·))).run c = (some item, c₁)) {m : ModuleDoc}
    (isModule : item.module? = some m) {key : String} {x : Item}
    (member : (tree.get? item key).run c₁ = (some x, c₂)) (word : isIdentifier key = true)
    (other : x.module? = none) :
    let short := DottedName.shortest (joinName m.name key)
    ∃ r c₃, (tree.resolve short none).run c₂ = (some r, c₃) ∧
      (((tree.entity short).run c₂).1 = none → ∃ ps' outer o home, ps'.length ≤ ps.length ∧
        (∀ p ∈ ps', IsPlain p) ∧ ((tree.walk root ps').run c₃).1 = some outer ∧
        outer.module? = some o ∧
        (tree.module (SourceTree.packageName o.name qs)).run c₃ = (some home, c₃) ∧
        (r.module? = none ∧ (tree.get? home key).run c₃ = (some r, c₃) ∨
          r.module?.isSome ∧ (tree.get? home ("+" ++ key)).run c₃ = (some r, c₃))) := by
  intro short
  obtain ⟨given₁, session₁, kept, atHand₁, way⟩ :=
    session.exists_walk proper atHand (congrArg Prod.fst reached)
  obtain ⟨_, isRoot', below⟩ := way m isModule
  cases isRoot.symm.trans isRoot'
  rw [reached] at session₁
  obtain ⟨⟨flat₀, there⟩, -⟩ := session.exists_members proper atHand isRoot
  have session₂ := session₁.call (.get item key) trivial (by simpa [Call.uses] using atHand₁)
  have state : (((Call.get item key).run tree).run c₁).2 = c₂ := congrArg Prod.snd member
  rw [state] at session₂
  have means : (tree.memberEntities m).get? key = some x.entity := by
    rw [← session₁.entity_of_get? proper atHand₁ isModule key, member, Option.map_some]
  have single : x.entity.isModule = false := by rw [← Item.isSome_module?, other]; rfl
  obtain ⟨cut, ps', o, e, length, plain', below', held, found⟩ := SourceTree.codeEntity_of_moduleBelow
    proper undotted there unnamed plain words below word means single
  obtain ⟨dotted, packages, last, -⟩ := @SourceTree.codeEntity_short tree qs key words word
  rw [← cut] at dotted packages last
  have flat : HasNoSlash short := hasNoSlash_of_isDottedIdentifier dotted
  have answer : ((tree.resolve short none).run c₂).1.map Item.entity =
      (tree.entityNamed short <|> some e) := by
    rw [← found]
    exact Answer.one.inj (@Session.answer_eq tree _ c₂ proper session₂ (.resolve short none)
      ⟨flat, by simp⟩ (by simp [Call.uses]))
  have answered : ((tree.resolve short none).run c₂).1.isSome := by
    rw [← Option.isSome_map, answer]
    cases tree.entityNamed short <;> rfl
  obtain ⟨r, here⟩ := Option.isSome_iff_exists.mp answered
  refine ⟨r, ((tree.resolve short none).run c₂).2, Prod.ext here rfl, fun nothing => ?_⟩
  have session₃ := session₂.call (.resolve short none) ⟨flat, by simp⟩ (by simp [Call.uses])
  change Session tree Call.IsFlat [] {} _ ((tree.resolve short none).run c₂).2 at session₃
  have entity : r.entity = e := by
    have absent := session₂.entity_of_entity proper flat
    rw [nothing] at absent
    rw [here, ← absent] at answer
    exact Option.some.inj answer
  obtain ⟨outer', finds⟩ := SourceTree.finds_of_resolve session₂ flat nothing here
  rw [packages, last] at finds
  obtain ⟨outer, walked, isOuter⟩ :=
    session₃.exists_of_moduleBelow proper (by simp [kept atHand]) isRoot below'
  obtain ⟨home, run, kind⟩ :=
    SourceTree.exists_home_of_finds proper session₃ (entity ▸ held) finds
  exact ⟨ps', outer, o, home, length, plain', walked, isOuter, run, kind⟩

/-- A function in the package `q` in the plain folder `p`. -/
theorem resolve_shortest_package :
    let source := "function f\nend\n".toList.map fun c => UInt8.ofNat c.toNat
    let tree : SourceTree :=
      ⟨{ root := .folder [("p", .folder [("+q", .folder [("f.m", .file source)])])] }, { root := "/" }⟩
    let root : Item := ⟨0, .module { name := "", path := "/", doc := none }⟩
    let item : Item := ⟨2, .module { name := "p.+q", path := "/p/+q", doc := none }⟩
    let c := (((Call.module "").run tree).run {}).2
    let c₁ := ((tree.walk root ["p", "+q"]).run c).2
    let c₂ := ((tree.get? item "f").run c₁).2
    ((tree.walk root ["p", "+q"]).run c).1 = some item ∧
      ((tree.get? item "f").run c₁).1.isSome = true ∧
      DottedName.shortest (joinName "p.+q" "f") = "q.f" ∧
      ((tree.resolve "q.f" none).run c₂).1.isSome = true := by
  intro source tree root item c c₁ c₂
  have inner : (FileTree.folder [("f.m", .file source)]).Proper :=
    .folder _ (by decide) (by simpa using .file source)
  have proper : tree.disk.root.Proper :=
    .folder _ (by decide) (by simpa using .folder _ (by decide) (by simpa using inner))
  have undotted : tree.Undotted := by
    refine SourceTree.undotted_of_root (.folder _ (by simp) ?_)
    simpa using .folder _ (by simp) (by
      simpa using .folder _ (by simp [FileTree.isFolder]) (by simpa using .file source))
  have loaded : (((Call.module "").run tree).run {}).1 = .one (some root) := by decide +kernel
  have reached : ((tree.walk root ["p", "+q"]).run c).1 = some item := by decide +kernel
  have found : ((tree.get? item "f").run c₁).1.map (·.module?) = some none := by decide +kernel
  obtain ⟨x, member, other⟩ := Option.map_eq_some_iff.mp found
  have session : Session tree Call.IsFlat [] {} [root] c := .ofRoot loaded
  have keys : ["p"] ++ ["q"].map ("+" ++ ·) = ["p", "+q"] := by decide
  have walked : (tree.walk root (["p"] ++ ["q"].map ("+" ++ ·))).run c = (some item, c₁) := by
    rw [keys]
    exact Prod.ext reached rfl
  have got : (tree.get? item "f").run c₁ = (some x, c₂) := by
    show _ = (some x, ((tree.get? item "f").run c₁).2)
    rw [← member]
    exact (Prod.eta _).symm
  clear_value c₂ c₁ c
  have plain : ∀ p ∈ ["p"], IsPlain p := by simpa using ⟨by decide, by decide⟩
  have words : ∀ q ∈ ["q"], isIdentifier q = true := by decide
  have short : DottedName.shortest (joinName "p.+q" "f") = "q.f" := by decide
  have isRoot : root.module? = some ⟨"", "/", none⟩ := rfl
  have isItem : item.module? = some ⟨"p.+q", "/p/+q", none⟩ := rfl
  obtain ⟨r, c₃, answer, -⟩ := resolve_shortest proper undotted session List.mem_cons_self
    isRoot rfl plain words walked isItem got (by decide) other
  rw [short] at answer
  exact ⟨reached, by rw [member]; rfl, short, by rw [answer]; rfl⟩

end MatlabOutline
