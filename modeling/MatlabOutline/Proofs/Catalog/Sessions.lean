import MatlabOutline.Proofs.Catalog.Grounded
import MatlabOutline.Proofs.Catalog.Lookups

/-!
Sessions: any number of calls on one catalog. In every session no key begins while it is being
loaded, and every search comes to its end.
-/

namespace MatlabOutline

open Catalog Law

/-- What can be asked of a catalog, or done to it. -/
inductive Call
  | module (dotted : String)
  | entity (name : String)
  | resolve (name : String) (within : Option String)
  | members (item : Item)
  | get (item : Item) (key : String)
  | publicNames (item : Item)
  | bases (item : Item)
  /-- Lists a module without keeping the list. -/
  | list (m : ModuleDoc)
  /-- Makes an item that was not loaded. -/
  | create (e : Entity)
  /-- Makes a class from another. -/
  | copy (made : ClassDoc) (origin : Item)
  | record (d : Diagnostic)
  | reset

/-- What a call gives. -/
inductive Answer (α : Type)
  | one (x : Option α)
  | table (t : Option (Table α))
  | many (l : Option (List α))
  | names (l : Option (List String))
  | nothing
deriving DecidableEq

namespace Answer

variable {α β : Type}

def map (f : α → β) : Answer α → Answer β
  | one x => one (x.map f)
  | table t => table (t.map (·.map f))
  | many l => many (l.map (·.map f))
  | names l => names l
  | nothing => nothing

def items : Answer α → List α
  | one x => x.toList
  | table t => t.elim [] fun t => t.entries.map Prod.snd
  | many l => l.getD []
  | names _ => []
  | nothing => []

end Answer

namespace Call

def run (tree : SourceTree) : Call → CatalogM (Answer Item)
  | module dotted => do return .one (← tree.module dotted)
  | entity name => do return .one (← tree.entity name)
  | resolve name within => do return .one (← tree.resolve name within)
  | members item => do return .table (← tree.members item)
  | get item key => do return .one (← tree.get? item key)
  | publicNames item => do return .names (← tree.publicNames item)
  | bases item => do return .many (← tree.bases item)
  | list m => do return .table (some (← tree.loadMembers m))
  | create e => do return .one (some (← number e))
  | copy made origin => do return .one (some (← numberCopy made origin))
  | record d => do
    Catalog.record d
    return .nothing
  | reset => do
    modify Catalog.reset
    return .nothing

/-- The diagnostics that a call may record beside those of what it loads. -/
def Leaves : Call → Diagnostic → Prop
  | list _, d => (Key.members 0).Says d
  | record given, d => d = given
  | _, _ => False

/-- The items that a call is about. -/
def uses : Call → List Item
  | members item | get item _ | publicNames item | bases item | copy _ item => [item]
  | _ => []

end Call

/-- A catalog after any number of calls in `allowed`, and the items that are at hand then, where
`given₀` were at hand at the start and `c₀` was the catalog. A call is about items at hand, and gives
items to hand. -/
inductive Session (tree : SourceTree) (allowed : Call → Prop) (given₀ : List Item) (c₀ : Catalog) :
    List Item → Catalog → Prop
  | start : Session tree allowed given₀ c₀ given₀ c₀
  | call {given : List Item} {c : Catalog} (before : Session tree allowed given₀ c₀ given c)
      (call : Call) (may : allowed call) (about : ∀ item ∈ call.uses, item ∈ given) :
      Session tree allowed given₀ c₀ (given ++ ((call.run tree).run c).1.items)
        ((call.run tree).run c).2

namespace Catalog

/-- No key was begun twice, and none is still being loaded. What was loaded since the last reset was
begun. -/
structure LoadedOnce (c : Catalog) : Prop where
  nodup : c.begun.Nodup
  known : ∀ key ∈ c.begun, c.Knows key
  begun : ∀ key, c.Knows key →
    key ∈ c.begun ∨ (∃ serial, key = .members serial) ∨ ∃ serial, key = .bases serial

theorem Loaded.loadedOnce {tree : SourceTree} {bound : ℕ ×ₗ ℕᵒᵈ} {loose : List Diagnostic}
    {new : List (Key × List Diagnostic)} {c c₁ : Catalog}
    (loaded : Loaded tree bound loose new c c₁) (once : c.LoadedOnce) : c₁.LoadedOnce where
  nodup := by
    rw [loaded.begun, List.nodup_append']
    exact ⟨loaded.nodup, once.nodup, fun key late early =>
      (loaded.known_of_mem late).2.1 (once.known _ early)⟩
  known key member := by
    rw [loaded.begun, List.mem_append] at member
    rcases member with late | early
    · exact (loaded.known_of_mem late).2.2
    · exact loaded.knows key (once.known key early)
  begun key known := by
    rw [loaded.begun, List.mem_append]
    rcases loaded.frame key known with old | late | ⟨serial, rfl, -⟩
    · exact (once.begun key old).imp_left .inr
    · exact .inl (.inl late)
    · exact .inr (.inr ⟨serial, rfl⟩)

theorem loadedOnce_empty : LoadedOnce {} where
  nodup := List.nodup_nil
  known key member := by cases member
  begun key known := by
    obtain ⟨result, rfl, held⟩ := known
    cases result <;> cases held

theorem loadedOnce_reset (c : Catalog) : c.reset.LoadedOnce where
  nodup := List.nodup_nil
  known key member := by cases member
  begun key known := by
    obtain ⟨result, rfl, held⟩ := known
    cases result with
    | members serial t => exact .inr (.inl ⟨serial, rfl⟩)
    | bases serial l => exact .inr (.inr ⟨serial, rfl⟩)
    | _ => cases held

end Catalog

namespace SourceTree

variable {tree : SourceTree} {ids : List Entity}

/-- No call but a reset begins a key that is known or begun. -/
theorem orderly_call (proper : tree.disk.root.Proper) {call : Call} (kept : call ≠ .reset) :
    Orderly tree Key.top call.Leaves (call.run tree) := by
  cases call with
  | module dotted => exact (orderly_module dotted (Key.rank_lt_top _)).map _
  | entity name => exact ((orderly_entity proper 0 name).mono (Key.rank_lt_top _).le).map _
  | resolve name within =>
    exact ((orderly_resolve proper 0 name within).mono (Key.rank_lt_top _).le).map _
  | members item => exact (orderly_members proper item (Key.rank_lt_top _)).map _
  | get item key => exact (orderly_get? proper item key (Key.rank_lt_top _)).map _
  | publicNames item => exact ((orderly_members proper item (Key.rank_lt_top _)).map _).map _
  | bases item => exact (orderly_bases proper item).map _
  | list m => exact ((orderly_loadMembers proper 0 m).mono (Key.rank_lt_top _).le).map _
  | create e => exact (orderly_number e).map _
  | copy made origin => exact (orderly_numberCopy made origin).map _
  | record d => exact (orderly_of_remarks (remarks_record d) (by simp [Call.Leaves])).map _
  | reset => exact absurd rfl kept

/-- Every call keeps the catalog grounded and gives items that are recorded. -/
theorem grounded_call (proper : tree.disk.root.Proper) {call : Call}
    (about : ∀ item ∈ call.uses, item.RecordedIn ids) :
    tree.grounded.Yields ids (call.run tree) fun all a => ∀ x ∈ a.items, x.RecordedIn all := by
  have one {act : CatalogM (Option Item)}
      (yields : tree.grounded.Yields ids act fun all r => ∀ x ∈ r, x.RecordedIn all) :
      tree.grounded.Yields ids (do return Answer.one (← act))
        fun all a => ∀ x ∈ a.items, x.RecordedIn all :=
    yields.map fun all r _ holds x inside => holds x (Option.mem_toList.mp inside)
  cases call with
  | module dotted =>
    exact one ((grounded_module dotted).weaken fun _ r _ holds x inside => (holds x inside).1)
  | entity name => exact one (grounded_entity proper name)
  | resolve name within => exact one (grounded_resolve proper name within)
  | members item =>
    have recorded := about item (by simp [Call.uses])
    refine (grounded_members proper recorded).map fun all r _ holds x inside => ?_
    rcases r with _ | t
    · cases inside
    · obtain ⟨m, -, inner⟩ := holds t rfl
      obtain ⟨e, member, rfl⟩ := List.mem_map.mp inside
      exact (inner e member).1
  | get item key => exact one (grounded_get? proper (about item (by simp [Call.uses])) key)
  | publicNames item =>
    have listed : tree.grounded.Yields ids (tree.publicNames item) fun _ _ => True :=
      (grounded_members proper (about item (by simp [Call.uses]))).map fun _ _ _ _ => trivial
    exact listed.map fun _ _ _ _ x inside => by cases inside
  | bases item =>
    refine (grounded_bases proper item).map fun all r _ holds x inside => ?_
    rcases r with _ | l
    · cases inside
    · exact holds l rfl x inside
  | list m =>
    refine (grounded_loadMembers proper m).map fun all t _ holds x inside => ?_
    obtain ⟨e, member, rfl⟩ := List.mem_map.mp inside
    exact (holds e member).1
  | create e =>
    refine (yields_number trivial).map fun all item _ holds x inside => ?_
    cases List.mem_singleton.mp inside
    exact holds.1
  | copy made origin =>
    refine (grounded_numberCopy made origin).map fun all item _ holds x inside => ?_
    cases List.mem_singleton.mp inside
    exact holds.1
  | record d =>
    exact (yields_of_remarks (remarks_record d)).map fun _ _ _ _ x inside => by cases inside
  | reset =>
    refine fun more c _ kept =>
      ⟨more, List.prefix_rfl, ⟨kept.numbered, kept.entities, fun result held => ?_⟩, ?_⟩
    · cases result with
      | members serial t => exact kept.results (.members serial t) held
      | bases serial l => exact kept.results (.bases serial l) held
      | _ => cases held
    · exact fun x inside => by cases inside

/-- The search that the resolving of `name` comes to has an end. -/
def ResolvingEnds (tree : SourceTree) (name : String) (within : Option String) (c : Catalog) : Prop :=
  let c := match within.filter (!·.isEmpty) with
    | none => c
    | some scope => ((tree.entity (joinName scope name)).run c).2
  let c := ((tree.entity name).run c).2
  tree.SearchEnds { c with begun := .name name :: c.begun }

/-- The searches for the superclasses of `item` have an end. -/
def BasesEnd (tree : SourceTree) (item : Item) (c : Catalog) : Prop :=
  ∀ cls, item.class? = some cls → ∀ before name after, cls.superclasses = before ++ name :: after →
    tree.ResolvingEnds name (some cls.scope)
      ((tree.loadBases cls before).run { c with begun := .bases item.serial :: c.begun }).2

theorem resolvingEnds_of_kept (proper : tree.disk.root.Proper) (name : String)
    (within : Option String) {c : Catalog} (kept : tree.grounded.Kept ids c) :
    tree.ResolvingEnds name within c := by
  have anywhere {ids : List Entity} {c : Catalog} (kept : tree.grounded.Kept ids c) :
      let c := ((tree.entity name).run c).2
      tree.SearchEnds { c with begun := .name name :: c.begun } := by
    obtain ⟨more, -, kept', -⟩ := grounded_entity proper name ids c List.prefix_rfl kept
    exact searchEnds_of_kept proper (kept'.remark _ _ _)
  unfold ResolvingEnds
  split
  · exact anywhere kept
  · next scope _ =>
    obtain ⟨more, -, kept', -⟩ :=
      grounded_entity proper (joinName scope name) ids c List.prefix_rfl kept
    exact anywhere kept'

theorem basesEnd_of_kept (proper : tree.disk.root.Proper) (item : Item) {c : Catalog}
    (kept : tree.grounded.Kept ids c) : tree.BasesEnd item c := by
  intro cls _ before name _ _
  obtain ⟨more, -, kept', -⟩ := grounded_loadBases proper cls before ids _ List.prefix_rfl
    (kept.remark (.bases item.serial :: c.begun) c.diagnostics c.log)
  exact resolvingEnds_of_kept proper name _ kept'

end SourceTree

/-- The call comes to an end. Where it does not search, it goes through lists of files, of names and
of steps in them, one after the other. -/
def Call.Ends (tree : SourceTree) : Call → Catalog → Prop
  | .resolve name within, c => tree.ResolvingEnds name within c
  | .bases item, c => tree.BasesEnd item c
  | _, _ => True

namespace Session

variable {tree : SourceTree} {allowed : Call → Prop} {given : List Item} {c : Catalog}

theorem loadedOnce (proper : tree.disk.root.Proper) (session : Session tree allowed [] {} given c) :
    c.LoadedOnce := by
  induction session with
  | start => exact loadedOnce_empty
  | @call given c before call may about ih =>
    by_cases reset : call = .reset
    · subst reset
      exact loadedOnce_reset c
    · obtain ⟨loose, new, -, loaded⟩ :=
        SourceTree.orderly_call proper reset c fun key member _ => ih.known key member
      exact loaded.loadedOnce ih

theorem exists_kept (proper : tree.disk.root.Proper) (session : Session tree allowed [] {} given c) :
    ∃ ids, tree.grounded.Kept ids c ∧ ∀ item ∈ given, item.RecordedIn ids := by
  induction session with
  | start => exact ⟨[], kept_empty _, fun _ member => by cases member⟩
  | @call given c before call may about ih =>
    obtain ⟨ids, kept, recorded⟩ := ih
    obtain ⟨all, grown, kept', items⟩ := SourceTree.grounded_call proper
      (fun item member => recorded item (about item member)) ids c List.prefix_rfl kept
    refine ⟨all, kept', fun item member => ?_⟩
    rcases List.mem_append.mp member with old | new
    · exact (recorded item old).mono grown
    · exact items item new

end Session

/-- A lookup of a key whose loading has begun and is not over would begin it once more. -/
theorem begun_again {α : Type} {key : Key} {result : α → Result} {known : Catalog → Option α}
    {keep : α → Catalog → Catalog} {load : CatalogM α} (slot : Slot key result known keep)
    (keeps : ∀ c, c.begun <:+ (load.run c).2.begun) {c : Catalog} (begun : key ∈ c.begun)
    (pending : ¬c.Knows key) : ¬((once key known keep load).run c).2.LoadedOnce := by
  have unknown : known c = none := by simpa [slot.knows_iff] using pending
  rw [run_once_of_unknown key known keep load unknown]
  rintro ⟨nodup, -, -⟩
  rw [slot.begun] at nodup
  obtain ⟨new, later⟩ := keeps { c with begun := key :: c.begun }
  rw [← later] at nodup
  have twice := (List.nodup_append'.mp nodup).2.1
  exact (List.nodup_cons.mp twice).1 begun

/-- Whatever calls came before, no call begins a key twice, begins one that is known, or leaves one
half loaded; a lookup of a key that is being loaded would begin it again. And the call comes to an
end. -/
theorem call_loads_once {tree : SourceTree} (proper : tree.disk.root.Proper) {given : List Item}
    {c : Catalog} (session : Session tree (fun _ => True) [] {} given c) (call : Call)
    (about : ∀ item ∈ call.uses, item ∈ given) :
    ((call.run tree).run c).2.LoadedOnce ∧
      (call ≠ .reset → c.begun <:+ ((call.run tree).run c).2.begun) ∧ call.Ends tree c := by
  refine ⟨(session.call call trivial about).loadedOnce proper, fun kept => ?_, ?_⟩
  · obtain ⟨loose, new, -, loaded⟩ := SourceTree.orderly_call proper kept c
      fun key member _ => (session.loadedOnce proper).known key member
    exact ⟨new.map Prod.fst, loaded.begun.symm⟩
  · obtain ⟨ids, kept, -⟩ := session.exists_kept proper
    cases call with
    | resolve name within => exact SourceTree.resolvingEnds_of_kept proper name within kept
    | bases item => exact SourceTree.basesEnd_of_kept proper item kept
    | _ => trivial

/-- A class that names itself as its superclass. -/
theorem call_loads_once_cycle :
    let cycle : ClassDoc := { name := "A", scope := "", superclasses := ["A"] }
    let source := "classdef A < A\nend\n".toList.map fun c => UInt8.ofNat c.toNat
    let tree : SourceTree := ⟨{ root := .folder [("A.m", .file source)] }, { root := "/" }⟩
    let c := (((Call.create (.cls cycle)).run tree).run {}).2
    let c₁ := (((Call.bases ⟨0, .cls cycle⟩).run tree).run c).2
    tree.disk.root.Proper ∧ Session tree (fun _ => True) [] {} [⟨0, .cls cycle⟩] c ∧
      c₁.LoadedOnce ∧ c.begun <:+ c₁.begun ∧ tree.BasesEnd ⟨0, .cls cycle⟩ c := by
  intro cycle source tree c c₁
  have proper : tree.disk.root.Proper := by
    refine .folder _ ?_ ?_ <;> rintro e ⟨⟩
    · exact ⟨by decide, by decide, by decide, by decide⟩
    · contradiction
    · exact .file source
    · contradiction
  have session : Session tree (fun _ => True) [] {} [⟨0, .cls cycle⟩] c :=
    Session.start.call (.create (.cls cycle)) trivial (by simp [Call.uses])
  have once := call_loads_once proper session (.bases ⟨0, .cls cycle⟩) (by simp [Call.uses])
  exact ⟨proper, session, once.1, once.2.1 (by simp), once.2.2⟩

end MatlabOutline
