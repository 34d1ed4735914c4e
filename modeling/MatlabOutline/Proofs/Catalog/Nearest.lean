import MatlabOutline.Proofs.Catalog.ShortNames
import MatlabOutline.Proofs.Catalog.Ways

/-!
The search for a name that code uses is a breadth-first search. Main statement: it comes to its end, it finds
something if and only if a module that plain folders lead to means something by the name, and then it gives what
the nearest of these modules means (`codeName_nearest`).
-/

namespace MatlabOutline

open Catalog Law

namespace SourceTree

/-- Goes from the root of the source tree to the member at each key in turn. -/
def reach (tree : SourceTree) (keys : List String) : CatalogM (Option Item) := do
  match ← tree.module "" with
  | some root => tree.walk root keys
  | none => return none

/-- The members of the module that keys lead to. -/
def membersAt (tree : SourceTree) (keys : List String) : CatalogM (Option (Table Item)) := do
  match ← tree.reach keys with
  | some item => tree.members item
  | none => return none

/-- A module in which code finds names without a prefix: plain folders lead to it from the root. -/
structure IsCandidate (tree : SourceTree) (c : Catalog) (ps : List String) (o : ModuleDoc) : Prop where
  plain : ∀ p ∈ ps, IsPlain p
  reached : ((tree.reach ps).run c).1.bind Item.module? = some o

/-- The first way is shorter, or it is as long and takes an earlier member where the two part. -/
def IsNearer (tree : SourceTree) (c : Catalog) (ps qs : List String) : Prop :=
  ps.length < qs.length ∨ ps.length = qs.length ∧ ∃ shared p q r s t, ps = shared ++ p :: r ∧
    qs = shared ++ q :: s ∧ ((tree.membersAt shared).run c).1 = some t ∧ [p, q].Sublist t.keys

variable {tree : SourceTree} {ids : List Entity} {c : Catalog} {m₀ : ModuleDoc}

theorem faithful_walk (proper : tree.disk.root.Proper) {item : Item} {m : ModuleDoc}
    (entity : item.entity = .module m) (recorded : item.RecordedIn ids)
    (fit : tree.faithful.entity (.module m)) (keys : List String) :
    tree.faithful.Yields ids (tree.walk item keys) fun all r =>
      r.bind Item.module? = tree.moduleBelow m keys ∧
        ∀ x ∈ r, x.RecordedIn all ∧ ∀ o, x.module? = some o → tree.faithful.entity (.module o) := by
  induction keys generalizing ids item m with
  | nil =>
    have isModule : item.module? = some m := by rw [Item.module?, entity]
    refine yields_pure fun all grown => ⟨isModule, ?_⟩
    rintro _ ⟨⟩
    refine ⟨recorded.mono grown, fun o same => ?_⟩
    cases isModule.symm.trans same
    exact fit
  | cons key r ih =>
    refine (faithful_get? proper entity recorded fit key).bind fun more found grown shown => ?_
    rw [moduleBelow]
    rcases found with _ | inner
    · rw [shown.eq_none]
      exact yields_pure fun _ _ => ⟨rfl, by simp⟩
    obtain ⟨here, means⟩ := shown.eq_some
    rw [means]
    rcases kind : inner.entity with mi | _ | _ | _ | _
    case module =>
      rw [kind] at means
      obtain ⟨entry, -, -, there⟩ := hasFolder_of_get? proper means
      have name : mi.name = joinName m.name key := (moduleDoc?_of_get? proper means).1
      exact ih kind here ⟨name ▸ fit.1.joinName entry.whole, name ▸ there⟩
    all_goals
      have other : inner.module? = none := by rw [Item.module?, kind]
      rcases r with _ | ⟨key', r⟩
      · refine yields_pure fun all grown => ⟨other, ?_⟩
        rintro _ ⟨⟩
        exact ⟨here.mono grown, fun o same => by simp [other] at same⟩
      · have none : tree.walk inner (key' :: r) = pure none := by
          simp [walk, get?, members, other]
        simp only [none]
        exact yields_pure fun _ _ => ⟨rfl, by simp⟩

/-- What keys lead to from the root is what they mean there. -/
theorem faithful_reach (proper : tree.disk.root.Proper) (keys : List String) :
    tree.faithful.Yields ids (tree.reach keys) fun all r =>
      r.bind Item.module? = (tree.moduleDoc? "").bind (tree.moduleBelow · keys) ∧
        ∀ x ∈ r, x.RecordedIn all ∧ ∀ o, x.module? = some o → tree.faithful.entity (.module o) := by
  have flat : HasNoSlash "" := List.not_mem_nil
  refine (faithful_module flat).bind fun more found grown shown => ?_
  obtain ⟨rfl, absent⟩ | ⟨item, m, rfl, there, entity, recorded, fit⟩ := module_cases flat shown
  · rw [absent]
    exact yields_pure fun _ _ => ⟨rfl, by simp⟩
  · rw [there]
    exact faithful_walk proper entity recorded fit keys

section Kept

variable (proper : tree.disk.root.Proper) (kept : tree.faithful.Kept ids c)
include proper kept

theorem isCandidate_iff {ps : List String} {o : ModuleDoc} :
    tree.IsCandidate c ps o ↔
      (∀ p ∈ ps, IsPlain p) ∧ (tree.moduleDoc? "").bind (tree.moduleBelow · ps) = some o := by
  obtain ⟨-, -, -, reached, -⟩ := faithful_reach proper ps ids c List.prefix_rfl kept
  rw [← reached]
  exact ⟨fun ⟨plain, here⟩ => ⟨plain, here⟩, fun ⟨plain, here⟩ => ⟨plain, here⟩⟩

/-- The members that keys lead to have the keys that the members of the module mean. -/
theorem exists_membersAt (there : tree.moduleDoc? "" = some m₀) {shared : List String} {o : ModuleDoc}
    (below : tree.moduleBelow m₀ shared = some o) :
    ∃ t, ((tree.membersAt shared).run c).1 = some t ∧ t.keys = (tree.memberEntities o).keys := by
  obtain ⟨all, grown, kept', reached, inside⟩ := faithful_reach proper shared ids c List.prefix_rfl kept
  rw [there, Option.bind_some, below] at reached
  obtain ⟨item, found, isModule⟩ := Option.bind_eq_some_iff.mp reached
  obtain ⟨recorded, fit⟩ := inside item found
  obtain ⟨_, -, -, t, listed, -, shown⟩ := faithful_members proper (Item.entity_of_module? isModule) recorded
    (fit o isModule) all _ List.prefix_rfl kept'
  refine ⟨t, ?_, ?_⟩
  · rw [membersAt, run_bind, found]
    exact listed
  · rw [← shown, Table.keys, Table.keys, Table.map, List.map_map]
    rfl

theorem isNearer_of_precedes (there : tree.moduleDoc? "" = some m₀) {ps qs : List String}
    (precedes : tree.Precedes m₀ ps qs) : tree.IsNearer c ps qs := by
  refine precedes.imp_right fun ⟨same, shared, o, p, q, r, s, first, second, below, order⟩ => ?_
  obtain ⟨t, listed, keys⟩ := exists_membersAt proper kept there below
  exact ⟨same, shared, p, q, r, s, t, first, second, listed, keys ▸ order⟩

/-- What the catalog has found is found again, and that changes nothing. -/
theorem run_findIn_of_finds {outer outer' last : String} {packages : List String} {r : Item}
    (held : tree.entityIn outer packages last = some r.entity) (finds : c.Finds outer' packages last r) :
    (tree.findIn outer packages last).run c = (some r, c) := by
  rcases finds_of_entityIn proper kept held finds with ⟨other, listed⟩ | ⟨package, listed⟩
  · obtain ⟨home, _, t, -, -, found, run, get⟩ := exists_of_lists kept listed
    have plain : (some r).filter (·.module?.isNone) = some r := by simp [other]
    simp only [findIn, run_bind, run, get, found, plain]
    rfl
  · obtain ⟨home, m, t, there, members, found, run, get⟩ := exists_of_lists kept listed
    -- A member that is no module would have been found instead.
    have plain : (t.get? last).filter (·.module?.isNone) = none := by
      by_contra counts
      obtain ⟨y, filtered⟩ := Option.ne_none_iff_exists'.mp counts
      obtain ⟨here, other⟩ := Option.filter_eq_some_iff.mp filtered
      rw [Item.isNone_module?] at other
      have first : tree.entityIn outer packages last = some y.entity := by
        simp [entityIn, there, ← members, Table.get?_map, here, other, Option.filter_some]
      have same : r.entity = y.entity := Option.some.inj (held.symm.trans first)
      rw [Item.isSome_module?, same] at package
      simp [package] at other
    have single : (some r).filter (·.module?.isSome) = some r := by simp [package]
    simp only [findIn, run_bind, run, get, plain, found, single]
    rfl

end Kept

/-- The candidates and the ways to them, the nearest first. -/
def candidates (tree : SourceTree) : List (List String × ModuleDoc) :=
  (tree.moduleDoc? "").elim [] fun m => tree.waysBelow m 0 (tree.disk.root.height + 1)

theorem isDeep_of_moduleBelow (proper : tree.disk.root.Proper) {m o : ModuleDoc} {keys : List String} {depth : Nat}
    (deep : IsDeep depth m.name) (below : tree.moduleBelow m keys = some o) :
    IsDeep (depth + keys.length) o.name := by
  induction keys generalizing m depth with
  | nil =>
    cases below
    exact deep
  | cons key r ih =>
    obtain ⟨inner, found, later⟩ := moduleBelow_cons below
    have entry := (hasFolder_of_get? proper found).1
    have deeper : IsDeep (depth + 1) inner.name := (moduleDoc?_of_get? proper found).1 ▸ deep.joinName entry
    have last := ih deeper later
    rwa [Nat.add_right_comm, Nat.add_assoc] at last

/-- A way from the root ends on the disk, so that it is shorter than the disk is high. -/
theorem moduleBelow_root (proper : tree.disk.root.Proper) (there : tree.moduleDoc? "" = some m₀)
    {ps : List String} {o : ModuleDoc} (below : tree.moduleBelow m₀ ps = some o) :
    HasNoSlash o.name ∧ tree.moduleDoc? o.name = some o ∧ ps.length < tree.disk.root.height := by
  have unnamed : m₀.name = "" := congrArg ModuleDoc.name (moduleDoc?_eq_some there).1
  have deep : IsDeep (0 + ps.length) o.name :=
    isDeep_of_moduleBelow proper (unnamed ▸ isDeep_root "" List.mem_cons_self) below
  have here := (name_of_moduleBelow proper (unnamed ▸ there) below).2
  obtain ⟨-, valid, folder⟩ := moduleDoc?_eq_some here
  have low := length_trail_lt_height deep.1 valid folder
  have long := deep.2
  exact ⟨deep.1, here, by omega⟩

theorem mem_candidates (proper : tree.disk.root.Proper) {ps : List String} {o : ModuleDoc} :
    (ps, o) ∈ tree.candidates ↔
      (∀ p ∈ ps, IsPlain p) ∧ (tree.moduleDoc? "").bind (tree.moduleBelow · ps) = some o := by
  rw [candidates]
  rcases there : tree.moduleDoc? "" with _ | m
  · simp
  · simp only [Option.elim_some, Option.bind_some, waysBelow, List.mem_flatMap, mem_ways, List.mem_range'_1]
    constructor
    · rintro ⟨n, -, -, plain, below⟩
      exact ⟨plain, below⟩
    · rintro ⟨plain, below⟩
      have low := (moduleBelow_root proper there below).2.2
      exact ⟨ps.length, ⟨Nat.zero_le _, by omega⟩, rfl, plain, below⟩

theorem heldIn_of_mem_candidates (proper : tree.disk.root.Proper) {ps : List String} {o : ModuleDoc}
    (member : (ps, o) ∈ tree.candidates) (packages : List String) (last : String) :
    HasNoSlash o.name ∧ tree.heldIn packages last o.name = tree.entityIn o.name packages last := by
  obtain ⟨m, there, below⟩ := Option.bind_eq_some_iff.mp ((mem_candidates proper).mp member).2
  obtain ⟨flat, here, -⟩ := moduleBelow_root proper there below
  exact ⟨flat, by rw [heldIn, here, Option.bind_some]⟩

/-- The search comes to what the first candidate means that means something by the name. -/
theorem codeEntity_eq (proper : tree.disk.root.Proper) {name : String} (dotted : isDottedIdentifier name = true) :
    tree.codeEntity name = tree.candidates.findSome? fun w =>
      tree.heldIn (DottedName.trail (DottedName.splitLast name).1) (DottedName.splitLast name).2 w.2.name := by
  rw [codeEntity_of_dotted dotted, candidates]
  rcases there : tree.moduleDoc? "" with _ | m
  · simp [entityInLevel, there, entityInLevels]
  · have unnamed : m.name = "" := congrArg ModuleDoc.name (moduleDoc?_eq_some there).1
    rw [Option.elim_some, ← entityInLevels_ways proper (unnamed ▸ there), ways, List.map_singleton, unnamed]

theorem pairwise_candidates (proper : tree.disk.root.Proper) (kept : tree.faithful.Kept ids c) :
    tree.candidates.Pairwise fun v w => tree.IsNearer c v.1 w.1 := by
  rw [candidates]
  rcases there : tree.moduleDoc? "" with _ | m
  · exact .nil
  · exact (pairwise_waysBelow 0 _).imp (isNearer_of_precedes proper kept there)

end SourceTree

theorem exists_first {α β : Type} {R : α → α → Prop} {l : List α} (order : l.Pairwise R) {f : α → Option β} {b : β}
    (found : l.findSome? f = some b) : ∃ a ∈ l, f a = some b ∧ ∀ x ∈ l, (f x).isSome → x = a ∨ R a x := by
  obtain ⟨before, a, after, rfl, here, none⟩ := List.findSome?_eq_some_iff.mp found
  refine ⟨a, by simp, here, fun x member counts => ?_⟩
  rw [List.pairwise_append, List.pairwise_cons] at order
  rcases List.mem_append.mp member with earlier | later
  · simp [none x earlier] at counts
  · exact (List.mem_cons.mp later).imp_right (order.2.1.1 x)

/-- The search for a name that code uses comes to its end. It finds something if and only if a candidate means
something by the packages and the last part of the name, and then it gives what the nearest of these candidates
means: no other one has a shorter way, or a way of the same length that takes an earlier member where the two
part. -/
theorem codeName_nearest {tree : SourceTree} (proper : tree.disk.root.Proper) {given : List Item} {c : Catalog}
    (session : Session tree Call.IsFlat [] {} given c) {name : String} (dotted : isDottedIdentifier name = true) :
    let packages := DottedName.trail (DottedName.splitLast name).1
    let last := (DottedName.splitLast name).2
    let answer := ((tree.codeName name).run c).1
    let c₁ := ((tree.codeName name).run c).2
    tree.SearchEnds { c with begun := .name name :: c.begun } ∧
      (answer.isSome ↔ ∃ ps o, tree.IsCandidate c₁ ps o ∧
        ((tree.findIn o.name packages last).run c₁).1.isSome) ∧
      ∀ r, answer = some r → ∃ ps o, tree.IsCandidate c₁ ps o ∧
        (tree.findIn o.name packages last).run c₁ = (some r, c₁) ∧
        ∀ qs o', tree.IsCandidate c₁ qs o' → ((tree.findIn o'.name packages last).run c₁).1.isSome →
          qs = ps ∨ tree.IsNearer c₁ ps qs := by
  intro packages last answer c₁
  obtain ⟨numbered, grounded, -⟩ := session.exists_kept proper
  refine ⟨SourceTree.searchEnds_of_kept proper (grounded.remark _ _ _), ?_⟩
  obtain ⟨ids, faithful, -⟩ := session.exists_faithful proper
  obtain ⟨all, -, kept, shown⟩ := SourceTree.faithful_codeName proper name ids c List.prefix_rfl faithful
  change tree.faithful.Kept all c₁ at kept
  have answered : answer.map Item.entity = tree.candidates.findSome? fun w =>
      tree.heldIn packages last w.2.name := by rw [← SourceTree.codeEntity_eq proper dotted, ← shown.2]
  have flats : ∀ package ∈ packages, HasNoSlash package := SourceTree.hasNoSlash_of_mem_packages dotted
  have candidate {ps : List String} {o : ModuleDoc} :
      tree.IsCandidate c₁ ps o ↔ (ps, o) ∈ tree.candidates := by
    rw [SourceTree.isCandidate_iff proper kept, SourceTree.mem_candidates proper]
  have means {ps : List String} {o : ModuleDoc} (member : (ps, o) ∈ tree.candidates) :
      ((tree.findIn o.name packages last).run c₁).1.isSome = (tree.heldIn packages last o.name).isSome := by
    obtain ⟨flat, held⟩ := SourceTree.heldIn_of_mem_candidates proper member packages last
    obtain ⟨_, -, -, found⟩ := SourceTree.faithful_findIn proper flat flats last all c₁ List.prefix_rfl kept
    rw [held, ← found.2, Option.isSome_map]
  have nearest {r : Item} (here : answer = some r) : ∃ ps o, tree.IsCandidate c₁ ps o ∧
      (tree.findIn o.name packages last).run c₁ = (some r, c₁) ∧
      ∀ qs o', tree.IsCandidate c₁ qs o' → ((tree.findIn o'.name packages last).run c₁).1.isSome →
        qs = ps ∨ tree.IsNearer c₁ ps qs := by
    rw [here, Option.map_some] at answered
    obtain ⟨⟨ps, o⟩, member, held, first⟩ :=
      exists_first (SourceTree.pairwise_candidates proper kept) answered.symm
    have listed := (@SourceTree.links_codeName tree _ name _ (.refl _) session.linked.1).2.2
    obtain ⟨-, outer, finds⟩ := listed r here
    rw [(SourceTree.heldIn_of_mem_candidates proper member packages last).2] at held
    refine ⟨ps, o, candidate.mpr member, SourceTree.run_findIn_of_finds proper kept held finds,
      fun qs o' other counts => ?_⟩
    rw [candidate] at other
    rw [means other] at counts
    exact (first _ other counts).imp_left (congrArg Prod.fst)
  refine ⟨⟨fun some => ?_, ?_⟩, fun r => nearest⟩
  · obtain ⟨r, here⟩ := Option.isSome_iff_exists.mp some
    obtain ⟨ps, o, reached, run, -⟩ := nearest here
    exact ⟨ps, o, reached, by rw [run]; rfl⟩
  · rintro ⟨ps, o, reached, counts⟩
    rw [candidate] at reached
    rw [means reached] at counts
    rw [← Option.isSome_map (f := Item.entity), answered, List.findSome?_isSome_iff]
    exact ⟨(ps, o), reached, counts⟩

/-- A function in the plain folder `p`, which code calls by its name alone. -/
theorem codeName_nearest_function :
    let source := "function f\nend\n".toList.map fun c => UInt8.ofNat c.toNat
    let tree : SourceTree := ⟨{ root := .folder [("p", .folder [("f.m", .file source)])] }, { root := "/" }⟩
    let c := ((tree.codeName "f").run {}).2
    tree.disk.root.Proper ∧ isDottedIdentifier "f" = true ∧ ((tree.codeName "f").run {}).1.isSome = true ∧
      ∃ r ps o, ((tree.codeName "f").run {}).1 = some r ∧ tree.IsCandidate c ps o ∧
        (tree.findIn o.name [] "f").run c = (some r, c) := by
  intro source tree c
  have proper : tree.disk.root.Proper :=
    .folder _ (by decide) (by simpa using .folder _ (by decide) (by simpa using .file source))
  have dotted : isDottedIdentifier "f" = true := by decide
  have packages : DottedName.trail (DottedName.splitLast "f").1 = [] := by decide
  have last : (DottedName.splitLast "f").2 = "f" := by decide
  have found : ((tree.codeName "f").run {}).1.isSome = true := by decide +kernel
  obtain ⟨r, here⟩ := Option.isSome_iff_exists.mp found
  obtain ⟨-, -, nearest⟩ := codeName_nearest proper (.start : Session tree Call.IsFlat [] {} [] {}) dotted
  obtain ⟨ps, o, candidate, run, -⟩ := nearest r here
  rw [packages, last] at run
  exact ⟨proper, dotted, found, r, ps, o, here, candidate, run⟩

end MatlabOutline
