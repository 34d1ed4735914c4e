import MatlabOutline.Proofs.Catalog.AllLookups
import MatlabOutline.Proofs.Catalog.FileErrors

/-!
The errors of one file over all lookups: none of them tells of a file twice.
-/

namespace MatlabOutline

open Catalog Law

namespace SourceTree

section Tally

variable {tree : SourceTree} {dotted name : String} {read : Prop} {ids : List Entity}
  (unit : IsUnitName name) (flat : HasNoSlash dotted) (valid : isModuleName dotted = true)
  (file : tree.disk.isFile (tree.unitPath dotted name) = true) (proper : tree.disk.root.Proper)

include unit flat valid file proper

theorem tallies_entity {code : String} (flat' : HasNoSlash code) :
    tree.Tallies dotted name read ids (tree.entity code) := by
  have whole := flat'.classFolderName
  simp only [entity]
  refine (tallies_module unit flat valid whole).bind (faithful_module whole) fun more found _ shown => ?_
  obtain ⟨rfl, -⟩ | ⟨item, m, rfl, -⟩ := module_cases whole shown
  · refine (tallies_module unit flat valid whole.splitLast).bind (faithful_module whole.splitLast)
      fun more found _ shown => ?_
    obtain ⟨rfl, -⟩ | ⟨item, m, rfl, -, same, recorded, fit⟩ := module_cases whole.splitLast shown
    · exact leads_pure _
    · exact tallies_get? unit flat valid file proper same recorded fit _
  · exact leads_pure _

theorem tallies_findIn {outer : String} (flat' : HasNoSlash outer) {packages : List String}
    (flats : ∀ package ∈ packages, HasNoSlash package) (last : String) :
    tree.Tallies dotted name read ids (tree.findIn outer packages last) := by
  have package := flat'.packageName flats
  simp only [findIn]
  refine (tallies_module unit flat valid package).bind (faithful_module package) fun more found _ shown => ?_
  obtain ⟨rfl, -⟩ | ⟨item, m, rfl, -, same, recorded, fit⟩ := module_cases package shown
  · exact leads_pure _
  refine (tallies_get? unit flat valid file proper same recorded fit last).bind
    (faithful_get? proper same recorded fit last) fun more plain grown _ => ?_
  split
  · exact leads_pure _
  · exact (tallies_get? unit flat valid file proper same (recorded.mono grown) fit _).map _

theorem tallies_searchLevel {packages : List String} (flats : ∀ package ∈ packages, HasNoSlash package)
    (last : String) {folders : List String} (flat' : ∀ folder ∈ folders, HasNoSlash folder) :
    tree.Tallies dotted name read ids (tree.searchLevel packages last folders) := by
  induction folders generalizing ids with
  | nil => exact leads_pure _
  | cons folder r ih =>
    have here := flat' folder List.mem_cons_self
    have others := fun f inside => flat' f (List.mem_cons_of_mem folder inside)
    have rest (ids : List Entity) := @ih ids others
    simp only [searchLevel]
    refine (tallies_module unit flat valid here).bind (faithful_module here) fun more found _ shown => ?_
    obtain ⟨rfl, -⟩ | ⟨item, m, rfl, -, same, recorded, fit⟩ := module_cases here shown
    · exact rest more
    refine (tallies_findIn unit flat valid file proper here flats last).bind
      (faithful_findIn proper here flats last) fun more found grown _ => ?_
    rcases found with _ | x
    · have now := recorded.mono grown
      refine (tallies_members unit flat valid file proper same now fit).bind
        (faithful_members proper same now fit) fun more t _ _ => ?_
      refine (rest more).bind (faithful_searchLevel proper flats last others) fun more level _ _ => ?_
      rcases level with x | inner
      · exact leads_pure _
      · exact leads_pure _
    · exact leads_pure _

theorem tallies_searchLevels {packages : List String} (flats : ∀ package ∈ packages, HasNoSlash package)
    (last : String) (fuel : Nat) {depth : Nat} {folders : List String}
    (deep : ∀ dotted ∈ folders, IsDeep depth dotted) :
    tree.Tallies dotted name read ids (tree.searchLevels packages last fuel folders) := by
  induction fuel generalizing ids depth folders with
  | zero => cases folders <;> exact leads_pure _
  | succ fuel ih =>
    cases folders with
    | nil => exact leads_pure _
    | cons folder r =>
      have flats' := fun d inside => (deep d inside).1
      refine (tallies_searchLevel unit flat valid file proper flats last flats').bind
        (faithful_searchLevel proper flats last flats') fun more found _ holds => ?_
      rcases holds with ⟨x, rfl, -⟩ | ⟨inner, rfl, level⟩
      · exact leads_pure _
      · exact ih fun d inside => (isDeep_of_entityInLevel proper deep level d inside).1

theorem tallies_codeName (code : String) : tree.Tallies dotted name read ids (tree.codeName code) := by
  unfold codeName
  by_cases plain : isDottedIdentifier code
  · rw [if_pos plain]
    have flats := hasNoSlash_of_mem_packages plain
    have load (ids : List Entity) : tree.Tallies dotted name read ids (tree.loadCodeName code) := by
      refine leads_get fun c => ?_
      refine (tallies_searchLevels unit flat valid file proper flats _ _ isDeep_root).bind
        (faithful_searchLevels proper flats _ _ isDeep_root) fun more found _ _ => ?_
      rcases found with _ | item
      · exact leads_pure _
      · exact (tallies_note _ _ _).map _
    refine .map (leads_once (fun _ _ _ => id) fun more c _ kept tally _ => ?_) _
    have loaded := load more more _ List.prefix_rfl
      (kept.remark (.name code :: c.begun) c.diagnostics c.log) (tally.congr rfl rfl rfl rfl)
    exact loaded.congr rfl rfl rfl rfl
  · rw [if_neg plain]
    exact leads_pure _

theorem tallies_resolve {code : String} (flat' : HasNoSlash code) {within : Option String}
    (flats : ∀ scope ∈ within, HasNoSlash scope) :
    tree.Tallies dotted name read ids (tree.resolve code within) := by
  have anywhere (ids : List Entity) : tree.Tallies dotted name read ids (tree.resolveGlobal code) := by
    refine (tallies_entity unit flat valid file proper flat').bind (faithful_entity proper flat')
      fun more found _ _ => ?_
    rcases found with _ | item
    · exact tallies_codeName unit flat valid file proper code
    · exact leads_pure _
  rcases inside : within.filter (!·.isEmpty) with _ | scope
  · simp only [resolve, inside]
    exact anywhere ids
  · simp only [resolve, inside]
    have outer := (flats scope (Option.filter_eq_some_iff.mp inside).1).joinName flat'
    refine (tallies_entity unit flat valid file proper outer).bind (faithful_entity proper outer)
      fun more found _ _ => ?_
    rcases found with _ | item
    · exact anywhere more
    · exact leads_pure _

theorem tallies_superclass {d : ClassDoc} (scope : HasNoSlash d.scope) {code : String}
    (flat' : HasNoSlash code) : tree.Tallies dotted name read ids (tree.superclass d code) := by
  have scopes : ∀ s ∈ some d.scope, HasNoSlash s := by simpa using scope
  have warned (ids : List Entity) (text : String) :
      tree.Tallies dotted name read ids (warnSuperclass d text) :=
    tallies_of_remarks ((remarks_note _ _ _).bind fun _ => remarks_record _)
      (by simp [Disk.blames_of_warning])
  refine (tallies_resolve unit flat valid file proper flat' scopes).bind
    (faithful_resolve proper flat' scopes) fun more found _ _ => ?_
  split
  · split
    · exact leads_pure _
    · exact (warned more _).map _
  · split
    · exact (tallies_note _ _ _).map _
    · exact (warned more _).map _

theorem tallies_loadBases {d : ClassDoc} (scope : HasNoSlash d.scope) {codes : List String}
    (flats : ∀ code ∈ codes, HasNoSlash code) :
    tree.Tallies dotted name read ids (tree.loadBases d codes) := by
  induction codes generalizing ids with
  | nil => exact leads_pure _
  | cons code r ih =>
    have here := flats code List.mem_cons_self
    refine (tallies_superclass unit flat valid file proper scope here).bind
      (faithful_superclass proper scope here) fun more item _ _ => ?_
    exact (ih fun c inside => flats c (List.mem_cons_of_mem code inside)).map _

theorem tallies_bases {item : Item} {d : ClassDoc} (entity : item.entity = .cls d)
    (fit : tree.faithful.entity (.cls d)) : tree.Tallies dotted name read ids (tree.bases item) := by
  simp only [bases, Item.class?, entity]
  refine .map (leads_once (fun _ _ _ => id) fun more c _ kept tally _ => ?_) _
  have loads : tree.Tallies dotted name read more (tree.loadBases d d.superclasses) :=
    tallies_loadBases unit flat valid file proper fit.1 fit.2
  have loaded := loads more _ List.prefix_rfl
    (kept.remark (.bases item.serial :: c.begun) c.diagnostics c.log) (tally.congr rfl rfl rfl rfl)
  exact loaded.congr rfl rfl rfl rfl

/-- A lookup keeps the tally. -/
theorem tallies_lookup {call : Call} (may : call.IsLookup tree)
    (about : ∀ item ∈ call.uses, item.RecordedIn ids ∧ tree.faithful.entity item.entity) :
    tree.Tallies dotted name read ids (call.run tree) := by
  have listing {item : Item} (used : item ∈ call.uses) :
      tree.Tallies dotted name read ids (tree.members item) := by
    obtain ⟨recorded, fit⟩ := about item used
    rcases found : item.module? with _ | m
    · simp only [members, found]
      exact leads_pure _
    · have entity := Item.entity_of_module? found
      exact tallies_members unit flat valid file proper entity recorded (entity ▸ fit)
  cases may with
  | flat flat' =>
    cases call with
    | module scope => exact (tallies_module unit flat valid flat').map _
    | entity code => exact (tallies_entity unit flat valid file proper flat').map _
    | resolve code within => exact (tallies_resolve unit flat valid file proper flat'.1 flat'.2).map _
    | members item => exact (listing List.mem_cons_self).map _
    | get item key => exact ((listing List.mem_cons_self).map _).map _
    | bases item =>
      obtain ⟨recorded, fit⟩ := about item List.mem_cons_self
      rcases found : item.class? with _ | d
      · simp only [Call.run, bases, found]
        exact leads_pure _
      · have entity := Item.entity_of_class? found
        exact (tallies_bases unit flat valid file proper entity (entity ▸ fit)).map _
    | _ => exact flat'.elim
  | publicNames item => exact ((listing List.mem_cons_self).map _).map _
  | list fit =>
    exact ((leads_loadMembers unit flat valid file proper fit).map _).weaken (fun _ => id) fun _ tally =>
      tally.weaken .inl

end Tally

end SourceTree

/-- The tally is kept in every session. -/
theorem Session.tally {tree : SourceTree} {given given' : List Item} {c c' : Catalog}
    (proper : tree.disk.root.Proper) {dotted name : String} (unit : SourceTree.IsUnitName name)
    (flat : HasNoSlash dotted) (valid : SourceTree.isModuleName dotted = true)
    (file : tree.disk.isFile (tree.unitPath dotted name) = true) {read : Prop}
    (session : Session tree (Call.IsLookup tree) [] {} given c) (tally : tree.Tally dotted name read c)
    (later : Session tree (Call.IsLookup tree) given c given' c') : tree.Tally dotted name read c' := by
  induction later with
  | start => exact tally
  | @call given' c' before call may about ih =>
    obtain ⟨ids, kept, recorded⟩ := (session.trans before).exists_recorded proper
    exact SourceTree.tallies_lookup unit flat valid file proper may
      (fun item member => recorded item (about item member)) ids _ List.prefix_rfl kept ih

end MatlabOutline
