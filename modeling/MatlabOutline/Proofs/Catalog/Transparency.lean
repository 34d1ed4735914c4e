import MatlabOutline.Proofs.Catalog.Lasting
import MatlabOutline.Proofs.Catalog.Names
import MatlabOutline.Proofs.Catalog.Sessions

/-!
Transparent catalogs: what was loaded before makes no difference to what a call means. An answer is
given again as the same items, and no file is read twice.
-/

namespace MatlabOutline

open Catalog Law

namespace Call

/-- A lookup of names without `/`, or of items. -/
def IsFlat : Call → Prop
  | module dotted => HasNoSlash dotted
  | entity name => HasNoSlash name
  | resolve name within => HasNoSlash name ∧ ∀ scope ∈ within, HasNoSlash scope
  | members _ | get _ _ | bases _ => True
  | _ => False

/-- What a lookup means in the source tree. -/
def meaning (tree : SourceTree) : Call → Answer Entity
  | module dotted => .one ((tree.moduleDoc? dotted).map .module)
  | entity name => .one (tree.entityNamed name)
  | resolve name within => .one (tree.resolvedEntity name within)
  | members item => .table (item.module?.map tree.memberEntities)
  | get item key => .one ((item.module?.map tree.memberEntities).bind (·.get? key))
  | bases item => .many (item.class?.map tree.baseEntities)
  | _ => .nothing

theorem IsFlat.ne_reset {call : Call} (flat : call.IsFlat) : call ≠ .reset := by
  rintro rfl
  exact flat

theorem IsFlat.not_leaves {call : Call} (flat : call.IsFlat) (d : Diagnostic) : ¬call.Leaves d := by
  cases call <;> first | exact id | exact flat.elim

end Call

namespace Item

theorem entity_of_module? {item : Item} {m : ModuleDoc} (found : item.module? = some m) :
    item.entity = .module m := by
  unfold module? at found
  split at found
  · cases found
    assumption
  · cases found

theorem entity_of_class? {item : Item} {c : ClassDoc} (found : item.class? = some c) :
    item.entity = .cls c := by
  unfold class? at found
  split at found
  · cases found
    assumption
  · cases found

end Item

namespace SourceTree

variable {tree : SourceTree} {ids : List Entity}

/-- The items of an answer were numbered, and their entities are what the call means. -/
def Means (tree : SourceTree) (ids : List Entity) (call : Call) (a : Answer Item) : Prop :=
  (∀ x ∈ a.items, x.RecordedIn ids) ∧ a.map Item.entity = call.meaning tree

theorem means_one {call : Call} {e : Option Entity} (means : call.meaning tree = .one e)
    {act : CatalogM (Option Item)} (yields : tree.faithful.Yields ids act fun all r => Shows all e r) :
    tree.faithful.Yields ids (do return Answer.one (← act)) fun all a => tree.Means all call a := by
  refine yields.map fun all r _ shown => ⟨fun x inside => ?_, ?_⟩
  · exact shown.1 x (Option.mem_toList.mp inside)
  · rw [means, ← shown.2]
    rfl

/-- A flat call about items that were numbered gives what it means. -/
theorem faithful_call (proper : tree.disk.root.Proper) {call : Call} (flat : call.IsFlat)
    (about : ∀ item ∈ call.uses, item.RecordedIn ids ∧ tree.faithful.entity item.entity) :
    tree.faithful.Yields ids (call.run tree) fun all a => tree.Means all call a := by
  have nothing {a : Answer Item} (none : a.items = [])
      (means : a.map Item.entity = call.meaning tree) :
      tree.faithful.Yields ids (pure a) fun all a => tree.Means all call a :=
    yields_pure fun _ _ => ⟨by simp [none], means⟩
  cases call with
  | module dotted => exact means_one rfl (faithful_module flat)
  | entity name => exact means_one rfl (faithful_entity proper flat)
  | resolve name within => exact means_one rfl (faithful_resolve proper flat.1 flat.2)
  | members item =>
    obtain ⟨recorded, fit⟩ := about item (by simp [Call.uses])
    rcases found : item.module? with _ | m
    · simp only [Call.run, members, found]
      exact nothing rfl (by simp [Call.meaning, found, Answer.map])
    · have entity := Item.entity_of_module? found
      rw [entity] at fit
      refine (faithful_members proper entity recorded fit).map fun all r _ holds => ?_
      obtain ⟨t, rfl, shown⟩ := holds
      refine ⟨fun x inside => ?_, by simp [Call.meaning, found, Answer.map, shown.2]⟩
      obtain ⟨e, member, rfl⟩ := List.mem_map.mp inside
      exact shown.1 e member
  | get item key =>
    obtain ⟨recorded, fit⟩ := about item (by simp [Call.uses])
    rcases found : item.module? with _ | m
    · simp only [Call.run, get?, members, found]
      exact nothing rfl (by simp [Call.meaning, found, Answer.map])
    · have entity := Item.entity_of_module? found
      rw [entity] at fit
      refine means_one ?_ (faithful_get? proper entity recorded fit key)
      simp [Call.meaning, found]
  | bases item =>
    obtain ⟨recorded, fit⟩ := about item (by simp [Call.uses])
    rcases found : item.class? with _ | c
    · simp only [Call.run, bases, found]
      exact nothing rfl (by simp [Call.meaning, found, Answer.map])
    · have entity := Item.entity_of_class? found
      rw [entity] at fit
      refine (faithful_bases proper entity recorded fit).map fun all r _ holds => ?_
      obtain ⟨l, rfl, shown⟩ := holds
      exact ⟨shown.1, by simp [Call.meaning, found, Answer.map, shown.2]⟩
  | _ => exact flat.elim

/-- An empty catalog lists a module that was loaded into another. -/
theorem fresh_members (proper : tree.disk.root.Proper) {item : Item}
    (fit : tree.faithful.entity item.entity) :
    ((tree.members item).run {}).1.map (·.map Item.entity) = item.module?.map tree.memberEntities := by
  rcases found : item.module? with _ | m
  · simp only [members, found]
    rfl
  · rw [Item.entity_of_module? found] at fit
    obtain ⟨all, -, -, shown⟩ := faithful_loadMembers proper fit [] _ List.prefix_rfl
      ((kept_empty tree.faithful).remark [.members item.serial] [] [])
    simp only [members, found, run_bind, onceMembers]
    rw [run_once_of_unknown _ _ _ _ rfl]
    exact congrArg some shown.2

theorem fresh_bases (proper : tree.disk.root.Proper) {item : Item}
    (fit : tree.faithful.entity item.entity) :
    ((tree.bases item).run {}).1.map (·.map Item.entity) = item.class?.map tree.baseEntities := by
  rcases found : item.class? with _ | c
  · simp only [bases, found]
    rfl
  · rw [Item.entity_of_class? found] at fit
    obtain ⟨all, -, -, shown⟩ := faithful_loadBases proper fit.1 fit.2 [] _ List.prefix_rfl
      ((kept_empty tree.faithful).remark [.bases item.serial] [] [])
    simp only [bases, found, run_bind, onceBases]
    rw [run_once_of_unknown _ _ _ _ rfl]
    exact congrArg some shown.2

/-- On an empty catalog a flat call gives what it means, also about items of another catalog. -/
theorem fresh_call (proper : tree.disk.root.Proper) {call : Call} (flat : call.IsFlat)
    (fit : ∀ item ∈ call.uses, tree.faithful.entity item.entity) :
    ((call.run tree).run {}).1.map Item.entity = call.meaning tree := by
  have alone (none : call.uses = []) :
      ((call.run tree).run {}).1.map Item.entity = call.meaning tree := by
    obtain ⟨all, -, -, means⟩ := faithful_call proper flat (by simp [none]) [] {} List.prefix_rfl
      (kept_empty tree.faithful)
    exact means.2
  cases call with
  | module dotted => exact alone rfl
  | entity name => exact alone rfl
  | resolve name within => exact alone rfl
  | members item => exact congrArg Answer.table (fresh_members proper (fit item (by simp [Call.uses])))
  | get item key =>
    have listed := fresh_members proper (fit item (by simp [Call.uses]))
    show Answer.one ((((tree.members item).run {}).1.bind (·.get? key)).map Item.entity) = .one _
    rw [← listed]
    cases ((tree.members item).run {}).1 with
    | none => rfl
    | some t => exact congrArg Answer.one (Table.get?_map Item.entity t key).symm
  | bases item => exact congrArg Answer.many (fresh_bases proper (fit item (by simp [Call.uses])))
  | _ => exact flat.elim

theorem lasting_call (proper : tree.disk.root.Proper) {call : Call} (flat : call.IsFlat) {c : Catalog}
    (clear : Clear Key.top c) (about : ∀ item ∈ call.uses, item.serial < c.next) :
    Lasting (call.run tree) ((call.run tree).run c).1 ((call.run tree).run c).2 := by
  have of {act : CatalogM (Answer Item)} (lasts : Lasts act) : Lasting act (act.run c).1 (act.run c).2 :=
    (lasts c clear).2.2
  cases call with
  | module dotted => exact of ((tree.lasts_module dotted).map _)
  | entity name => exact of ((lasts_entity proper name).map _)
  | resolve name within => exact of ((lasts_resolve proper name within).map _)
  | members item => exact of ((lasts_members proper item).map _)
  | get item key => exact of ((lasts_get? proper item key).map _)
  | bases item =>
    exact (lasting_bases proper clear (about item (by simp [Call.uses]))).bind (lasting_pure _ _)
  | _ => exact flat.elim

/-- Every file was read at most once, in whatever spelling of its path, and the diagnostics are those
of what was loaded, each once. -/
structure ReadOnce (tree : SourceTree) (c : Catalog) : Prop where
  logged : ∀ p r, c.files.get? p = some r → .file p ∈ c.begun
  nodup : c.begun.Nodup
  places : ∀ p q, .file p ∈ c.begun → .file q ∈ c.begun →
    tree.disk.placeOf p = tree.disk.placeOf q → p = q
  diagnostics : ∃ reports : List (Key × List Diagnostic), reports.map Prod.fst = c.begun ∧
    (∀ e ∈ reports, tree.Reports e.1 e.2) ∧ c.diagnostics.Perm (reports.flatMap Prod.snd)

end SourceTree

namespace Session

variable {tree : SourceTree} {allowed : Call → Prop} {given₀ given : List Item} {c₀ c : Catalog}

/-- What a session without a reset loads. -/
theorem exists_loaded (proper : tree.disk.root.Proper) (calm : ∀ call, allowed call → call ≠ .reset)
    (clear : Clear Key.top c₀) (session : Session tree allowed given₀ c₀ given c) :
    ∃ loose new, (∀ d ∈ loose, ∃ call, allowed call ∧ call.Leaves d) ∧
      Loaded tree Key.top loose new c₀ c := by
  induction session with
  | start => exact ⟨[], [], by simp, .refl tree Key.top c₀⟩
  | @call given c before call may about ih =>
    obtain ⟨loose, new, left, loaded⟩ := ih
    obtain ⟨loose', new', left', loaded'⟩ :=
      SourceTree.orderly_call proper (calm call may) c (loaded.clear clear)
    refine ⟨loose ++ loose', new' ++ new, fun d member => ?_, loaded.trans loaded'⟩
    rcases List.mem_append.mp member with early | late
    · exact left d early
    · exact ⟨call, may, left' d late⟩

/-- A flat session keeps the catalog faithful. -/
theorem exists_faithful (proper : tree.disk.root.Proper)
    (session : Session tree Call.IsFlat [] {} given c) :
    ∃ ids, tree.faithful.Kept ids c ∧
      ∀ item ∈ given, item.RecordedIn ids ∧ tree.faithful.entity item.entity := by
  induction session with
  | start => exact ⟨[], kept_empty _, fun _ member => by cases member⟩
  | @call given c before call may about ih =>
    obtain ⟨ids, kept, recorded⟩ := ih
    obtain ⟨all, grown, kept', means⟩ := SourceTree.faithful_call proper may
      (fun item member => recorded item (about item member)) ids c List.prefix_rfl kept
    refine ⟨all, kept', fun item member => ?_⟩
    rcases List.mem_append.mp member with old | new
    · exact ⟨(recorded item old).1.mono grown, (recorded item old).2⟩
    · have here := means.1 item new
      exact ⟨here, kept'.entities _ (List.mem_of_getElem? here)⟩

theorem readOnce (proper : tree.disk.root.Proper) (session : Session tree Call.IsFlat [] {} given c) :
    tree.ReadOnce c := by
  obtain ⟨loose, new, left, loaded⟩ := session.exists_loaded proper (fun _ => Call.IsFlat.ne_reset)
    (fun key member => absurd member List.not_mem_nil)
  obtain ⟨ids, kept, -⟩ := session.exists_faithful proper
  have none : loose = [] := List.eq_nil_iff_forall_not_mem.mpr fun d member => by
    obtain ⟨call, flat, leaves⟩ := left d member
    exact flat.not_leaves d leaves
  have begun : c.begun = new.map Prod.fst := by simpa using loaded.begun
  have source {key : String} (member : .file key ∈ c.begun) : ∃ dotted below,
      SourceTree.IsSource dotted below ∧ PathText.normal (tree.sourcePath dotted below) = key := by
    rw [begun] at member
    obtain ⟨result, same, held⟩ := (loaded.known_of_mem member).2.2
    cases result <;> cases same
    obtain ⟨dotted, below, source, path, -⟩ := kept.results _ held
    exact ⟨dotted, below, source, path⟩
  refine ⟨fun p r held => ?_, begun ▸ loaded.nodup, fun p q inP inQ same => ?_, new, begun.symm,
    fun e inside => (loaded.facts e inside).2.2.2, ?_⟩
  · simpa using (session.loadedOnce proper).begun (.file p) ⟨.file p r, rfl, held⟩
  · obtain ⟨dotted, below, sourceP, rfl⟩ := source inP
    obtain ⟨dotted', below', sourceQ, rfl⟩ := source inQ
    obtain ⟨rfl, rfl⟩ := sourceP.eq_of_placeOf sourceQ same
    rfl
  · simpa [none] using loaded.diagnostics

end Session

/-- Whatever flat calls came before, a flat call gives the entities that it gives on an empty
catalog: those that it means in the source tree. Until a reset it gives the same items again, and
then changes nothing. And no file is read twice. -/
theorem call_transparent {tree : SourceTree} (proper : tree.disk.root.Proper) {given : List Item}
    {c : Catalog} (session : Session tree Call.IsFlat [] {} given c) (call : Call) (flat : call.IsFlat)
    (about : ∀ item ∈ call.uses, item ∈ given) :
    let answer := ((call.run tree).run c).1
    let c₁ := ((call.run tree).run c).2
    answer.map Item.entity = ((call.run tree).run {}).1.map Item.entity ∧
      answer.map Item.entity = call.meaning tree ∧
      (∀ given' c', Session tree (· ≠ .reset) (given ++ answer.items) c₁ given' c' →
        (call.run tree).run c' = (answer, c')) ∧
      tree.ReadOnce c₁ := by
  intro answer c₁
  have after : Session tree Call.IsFlat [] {} (given ++ answer.items) c₁ :=
    session.call call flat about
  obtain ⟨ids, kept, recorded⟩ := session.exists_faithful proper
  have fit := fun item member => recorded item (about item member)
  have clear {given : List Item} {c : Catalog} (session : Session tree Call.IsFlat [] {} given c) :
      Clear Key.top c :=
    fun key member _ => (session.loadedOnce proper).known key member
  obtain ⟨all, -, -, means⟩ := SourceTree.faithful_call proper flat fit ids c List.prefix_rfl kept
  refine ⟨?_, means.2, fun given' c' later => ?_, after.readOnce proper⟩
  · rw [means.2, SourceTree.fresh_call proper flat fun item member => (fit item member).2]
  · obtain ⟨loose, new, -, loaded⟩ := later.exists_loaded proper (fun _ => id) (clear after)
    refine SourceTree.lasting_call proper flat (clear session) (fun item member => ?_) c' loaded.staysIn
    rw [← kept.numbered]
    exact (List.getElem?_eq_some_iff.mp (fit item member).1).1

/-- The members of the root of a source tree with one function. -/
theorem call_transparent_members :
    let source := "function f\nend\n".toList.map fun c => UInt8.ofNat c.toNat
    let tree : SourceTree := ⟨{ root := .folder [("f.m", .file source)] }, { root := "/" }⟩
    let item : Item := ⟨0, .module { name := "", path := "/", doc := none }⟩
    let c := (((Call.module "").run tree).run {}).2
    let call := Call.members item
    let answer := ((call.run tree).run c).1
    let c₁ := ((call.run tree).run c).2
    tree.disk.root.Proper ∧ Session tree Call.IsFlat [] {} [item] c ∧ call.IsFlat ∧
      answer.map Item.entity = ((call.run tree).run {}).1.map Item.entity ∧
      answer.map Item.entity = call.meaning tree ∧
      (∀ given' c', Session tree (· ≠ .reset) ([item] ++ answer.items) c₁ given' c' →
        (call.run tree).run c' = (answer, c')) ∧
      tree.ReadOnce c₁ := by
  intro source tree item c call answer c₁
  have proper : tree.disk.root.Proper := by
    refine .folder _ ?_ ?_ <;> rintro e ⟨⟩
    · exact ⟨by decide, by decide, by decide, by decide⟩
    · contradiction
    · exact .file source
    · contradiction
  have loaded : (((Call.module "").run tree).run {}).1 = .one (some item) := by decide +kernel
  have flat : HasNoSlash "" := List.not_mem_nil
  have session : Session tree Call.IsFlat [] {} [item] c := by
    have first := (Session.start : Session tree Call.IsFlat [] {} [] {}).call (.module "") flat
      (by simp [Call.uses])
    rwa [loaded] at first
  exact ⟨proper, session, trivial,
    call_transparent proper session call trivial (by simp [call, Call.uses])⟩

end MatlabOutline
