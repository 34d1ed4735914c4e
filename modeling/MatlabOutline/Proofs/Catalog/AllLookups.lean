import MatlabOutline.Proofs.Catalog.Links

/-!
Lookups of every kind. A module may also be asked for its public names, or listed once more without
keeping the list. Catalogs stay faithful and linked in such sessions too.
-/

namespace MatlabOutline

open Catalog Law

/-- A flat call, or one that tells the public names of a module or lists it anew. -/
inductive Call.IsLookup (tree : SourceTree) : Call → Prop
  | flat {call : Call} (flat : call.IsFlat) : IsLookup tree call
  | publicNames (item : Item) : IsLookup tree (.publicNames item)
  | list {m : ModuleDoc} (fit : HasNoSlash m.name ∧ tree.moduleDoc? m.name = some m) :
      IsLookup tree (.list m)

namespace SourceTree

variable {tree : SourceTree} {ids : List Entity}

/-- Lookups about items that were numbered give such items. -/
theorem faithful_lookup (proper : tree.disk.root.Proper) {call : Call} (may : call.IsLookup tree)
    (about : ∀ item ∈ call.uses, item.RecordedIn ids ∧ tree.faithful.entity item.entity) :
    tree.faithful.Yields ids (call.run tree) fun all a => ∀ x ∈ a.items, x.RecordedIn all := by
  cases may with
  | flat flat => exact (faithful_call proper flat about).weaken fun _ _ _ means => means.1
  | publicNames item =>
    obtain ⟨recorded, fit⟩ := about item (by simp [Call.uses])
    have listed : tree.faithful.Yields ids (tree.members item) fun _ _ => True := by
      rcases found : item.module? with _ | m
      · simp only [members, found]
        exact yields_pure fun _ _ => trivial
      · have entity := Item.entity_of_module? found
        exact (faithful_members proper entity recorded (entity ▸ fit)).weaken fun _ _ _ _ => trivial
    have named : tree.faithful.Yields ids (tree.publicNames item) fun _ _ => True :=
      listed.map fun _ _ _ _ => trivial
    exact named.map fun _ _ _ _ x inside => by cases inside
  | list fit =>
    refine (faithful_loadMembers proper fit).map fun all t _ shown x inside => ?_
    obtain ⟨e, member, rfl⟩ := List.mem_map.mp inside
    exact shown.1 e member

theorem links_lookup {call : Call} (may : call.IsLookup tree) {c₀ : Catalog} :
    Links .all c₀ (call.run tree) fun c a => ∀ x ∈ a.items, c.Registers x := by
  cases may with
  | flat flat => exact links_call flat
  | publicNames item =>
    have named : Links .all c₀ (tree.publicNames item) fun _ _ => True :=
      (links_members item).map fun _ _ _ _ => trivial
    exact named.map fun _ _ _ _ x inside => by cases inside
  | list fit =>
    refine (links_loadMembers _).ofModules.map fun c t _ holds x inside => ?_
    obtain ⟨e, member, rfl⟩ := List.mem_map.mp inside
    exact holds e member

end SourceTree

namespace Session

variable {tree : SourceTree} {allowed : Call → Prop} {given₀ given given' : List Item}
  {c₀ c c' : Catalog}

theorem trans (first : Session tree allowed given₀ c₀ given c)
    (later : Session tree allowed given c given' c') : Session tree allowed given₀ c₀ given' c' := by
  induction later with
  | start => exact first
  | call _ call may about ih => exact ih.call call may about

theorem lookups (session : Session tree Call.IsFlat given₀ c₀ given c) :
    Session tree (Call.IsLookup tree) given₀ c₀ given c := by
  induction session with
  | start => exact .start
  | call _ call may about ih => exact ih.call call (.flat may) about

/-- The sessions of all lookups are faithful. -/
theorem exists_recorded (proper : tree.disk.root.Proper)
    (session : Session tree (Call.IsLookup tree) [] {} given c) :
    ∃ ids, tree.faithful.Kept ids c ∧
      ∀ item ∈ given, item.RecordedIn ids ∧ tree.faithful.entity item.entity := by
  induction session with
  | start => exact ⟨[], kept_empty _, fun _ member => by cases member⟩
  | @call given c before call may about ih =>
    obtain ⟨ids, kept, recorded⟩ := ih
    obtain ⟨all, grown, kept', items⟩ := SourceTree.faithful_lookup proper may
      (fun item member => recorded item (about item member)) ids c List.prefix_rfl kept
    refine ⟨all, kept', fun item member => ?_⟩
    rcases List.mem_append.mp member with old | new
    · exact ⟨(recorded item old).1.mono grown, (recorded item old).2⟩
    · have here := items item new
      exact ⟨here, kept'.entities _ (List.mem_of_getElem? here)⟩

theorem registers (session : Session tree (Call.IsLookup tree) [] {} given c) :
    c.Linked ∧ ∀ x ∈ given, c.Registers x := by
  induction session with
  | start => exact ⟨Catalog.linked_empty, fun _ member => by cases member⟩
  | @call given c before call may about ih =>
    obtain ⟨grown, linked, known⟩ := SourceTree.links_lookup may c (.refl c) ih.1
    refine ⟨linked, fun x member => ?_⟩
    rcases List.mem_append.mp member with old | new
    · exact (ih.2 x old).mono grown.toRetains
    · exact known x new

variable {item : Item} {m : ModuleDoc}

/-- The members that a module has in such a session are those that it means. -/
theorem exists_listing (proper : tree.disk.root.Proper)
    (session : Session tree (Call.IsLookup tree) [] {} given c) (inside : item ∈ given)
    (isModule : item.module? = some m) :
    (HasNoSlash m.name ∧ tree.moduleDoc? m.name = some m) ∧
      ∃ t, ((tree.members item).run c).1 = some t ∧ t.map Item.entity = tree.memberEntities m := by
  obtain ⟨ids, kept, recorded⟩ := session.exists_recorded proper
  obtain ⟨here, fit⟩ := recorded item inside
  have entity := Item.entity_of_module? isModule
  rw [entity] at fit
  obtain ⟨all, -, -, t, listed, shown⟩ :=
    SourceTree.faithful_members proper entity here fit ids c List.prefix_rfl kept
  exact ⟨fit, t, listed, shown.2⟩

theorem moduleDoc_of_module (proper : tree.disk.root.Proper)
    (session : Session tree (Call.IsLookup tree) [] {} given c) {dotted : String}
    (flat : HasNoSlash dotted) :
    ((tree.module dotted).run c).1.map Item.entity = (tree.moduleDoc? dotted).map .module := by
  obtain ⟨ids, kept, -⟩ := session.exists_recorded proper
  obtain ⟨all, -, -, shown⟩ := SourceTree.faithful_module flat ids c List.prefix_rfl kept
  exact shown.2

end Session

end MatlabOutline
