import MatlabOutline.Proofs.Catalog.Lookups

/-!
Lasting answers: what a lookup gave once it gives again, as long as the results that the catalog held
then are still there.
-/

namespace MatlabOutline

namespace Catalog

variable {α β : Type} {c c₁ c₂ : Catalog}

/-- What is in the catalog `c` is also in `c₁`. -/
structure StaysIn (c c₁ : Catalog) : Prop where
  next : c.next ≤ c₁.next
  grown : Grown c.next c c₁

theorem StaysIn.refl (c : Catalog) : c.StaysIn c :=
  ⟨le_rfl, .refl c.next c⟩

theorem StaysIn.trans (first : c.StaysIn c₁) (second : c₁.StaysIn c₂) : c.StaysIn c₂ :=
  ⟨first.next.trans second.next, first.grown.trans first.next second.grown⟩

theorem Loaded.staysIn {tree : SourceTree} {bound : ℕ ×ₗ ℕᵒᵈ} {loose : List Diagnostic}
    {new : List (Key × List Diagnostic)} (loaded : Loaded tree bound loose new c c₁) : c.StaysIn c₁ :=
  ⟨loaded.next, loaded.grown⟩

/-- Whatever else is loaded into the catalog, `act` gives `a` and changes nothing. -/
def Lasting (act : CatalogM α) (a : α) (c : Catalog) : Prop :=
  ∀ c₁, c.StaysIn c₁ → act.run c₁ = (a, c₁)

variable {act : CatalogM α} {f : α → CatalogM β} {a : α} {b : β}

theorem Lasting.later (lasting : Lasting act a c) (stays : c.StaysIn c₁) : Lasting act a c₁ :=
  fun c₂ stays' => lasting c₂ (stays.trans stays')

theorem lasting_pure (a : α) (c : Catalog) : Lasting (pure a) a c :=
  fun _ _ => rfl

theorem Lasting.bind (first : Lasting act a c) (second : Lasting (f a) b c) :
    Lasting (act >>= f) b c := by
  intro c₁ stays
  rw [run_bind, first c₁ stays]
  exact second c₁ stays

/-- What is kept under its key is found there again. -/
theorem lasting_once {key : Key} {result : α → Result} {known : Catalog → Option α}
    {keep : α → Catalog → Catalog} {load : CatalogM α} (slot : Slot key result known keep)
    (held : c.Holds (result a)) (below : (result a).Below c.next) :
    Lasting (once key known keep load) a c :=
  fun c₁ stays => once_of_known key known keep load c₁ a
    ((slot.held c₁ a).mpr (stays.grown _ below held))

theorem holds_once {key : Key} {result : α → Result} {known : Catalog → Option α}
    {keep : α → Catalog → Catalog} (load : CatalogM α) (slot : Slot key result known keep)
    (c : Catalog) :
    ((once key known keep load).run c).2.Holds (result ((once key known keep load).run c).1) := by
  rcases found : known c with _ | a
  · rw [run_once_of_unknown key known keep load found]
    exact (slot.holds_keep _ _ _).mpr (.inl rfl)
  · rw [once_of_known key known keep load c a found]
    exact (slot.held c a).mp found

/-- A computation whose value lasts from when it is done. -/
def Lasts (act : CatalogM α) : Prop :=
  ∀ c, Clear Key.top c → c.StaysIn (act.run c).2 ∧ Clear Key.top (act.run c).2 ∧
    Lasting act (act.run c).1 (act.run c).2

theorem lasts_of_orderly {tree : SourceTree} (orderly : Orderly tree Key.top (fun _ => True) act)
    (lasting : ∀ c, Lasting act (act.run c).1 (act.run c).2) : Lasts act := by
  intro c clear
  obtain ⟨loose, new, -, loaded⟩ := orderly c clear
  exact ⟨loaded.staysIn, loaded.clear clear, lasting c⟩

theorem lasts_pure (a : α) : Lasts (pure a : CatalogM α) :=
  fun c clear => ⟨.refl c, clear, lasting_pure a c⟩

theorem Lasts.bind (first : Lasts act) (second : ∀ a, Lasts (f a)) : Lasts (act >>= f) := by
  intro c clear
  obtain ⟨stays, clear', lasting⟩ := first c clear
  obtain ⟨stays', clear'', lasting'⟩ := second (act.run c).1 _ clear'
  exact ⟨stays.trans stays', clear'', (lasting.later stays').bind lasting'⟩

theorem Lasts.map (first : Lasts act) (g : α → β) : Lasts (do return g (← act)) :=
  first.bind fun a => lasts_pure (g a)

end Catalog

namespace SourceTree

open Catalog

variable {tree : SourceTree}

theorem lasts_module (tree : SourceTree) (dotted : String) : Lasts (tree.module dotted) :=
  have orderly : Orderly tree Key.top (fun _ => True) (tree.module dotted) :=
    orderly_module dotted (Key.rank_lt_top _)
  lasts_of_orderly orderly fun c =>
    (lasting_once (slot_module _) (holds_once _ (slot_module _) c) trivial).bind (lasting_pure _ _)

theorem lasts_members (proper : tree.disk.root.Proper) (item : Item) : Lasts (tree.members item) := by
  refine lasts_of_orderly (orderly_members proper item (Key.rank_lt_top _)) fun c => ?_
  unfold members
  split
  · exact (lasting_once (slot_members _) (holds_once _ (slot_members _) c) trivial).bind
      (lasting_pure _ _)
  · exact lasting_pure _ _

theorem lasts_get? (proper : tree.disk.root.Proper) (item : Item) (key : String) :
    Lasts (tree.get? item key) :=
  (lasts_members proper item).map _

theorem lasts_codeName (proper : tree.disk.root.Proper) (name : String) :
    Lasts (tree.codeName name) := by
  refine lasts_of_orderly (orderly_codeName proper name (Key.rank_lt_top _)) fun c => ?_
  unfold codeName
  split
  · exact (lasting_once (slot_name _) (holds_once _ (slot_name _) c) trivial).bind (lasting_pure _ _)
  · exact lasting_pure _ _

theorem lasts_entity (proper : tree.disk.root.Proper) (name : String) :
    Lasts (tree.entity name) := by
  refine (tree.lasts_module _).bind fun found => ?_
  rcases found with _ | item
  · refine (tree.lasts_module _).bind fun found => ?_
    rcases found with _ | item
    · exact lasts_pure none
    · exact lasts_get? proper item _
  · exact lasts_pure _

theorem lasts_resolve (proper : tree.disk.root.Proper) (name : String) (within : Option String) :
    Lasts (tree.resolve name within) := by
  have anywhere : Lasts (tree.resolveGlobal name) := by
    refine (lasts_entity proper name).bind fun found => ?_
    rcases found with _ | item
    · exact lasts_codeName proper name
    · exact lasts_pure _
  unfold resolve
  split
  · exact anywhere
  · refine (lasts_entity proper _).bind fun found => ?_
    rcases found with _ | item
    · exact anywhere
    · exact lasts_pure _

/-- The superclasses of an item that has been numbered last from when they are found. -/
theorem lasting_bases (proper : tree.disk.root.Proper) {item : Item} {c : Catalog}
    (clear : Clear Key.top c) (numbered : item.serial < c.next) :
    Lasting (tree.bases item) ((tree.bases item).run c).1 ((tree.bases item).run c).2 := by
  have orderly : Orderly tree Key.top (fun _ => True) (tree.bases item) := orderly_bases proper item
  obtain ⟨loose, new, -, loaded⟩ := orderly c clear
  have below := numbered.trans_le loaded.next
  unfold bases at below ⊢
  split
  · next cls found =>
    simp only [found] at below
    exact (lasting_once (slot_bases _) (holds_once _ (slot_bases _) c) below).bind (lasting_pure _ _)
  · exact lasting_pure _ _

end SourceTree

end MatlabOutline
