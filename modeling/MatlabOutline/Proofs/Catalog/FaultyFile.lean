import MatlabOutline.Proofs.Catalog.LookupErrors
import MatlabOutline.Proofs.Catalog.OtherMembers

/-!
A faulty file affects only itself. Its module lacks one member, nothing else changes, and one error is
recorded of it however it is looked up.
-/

namespace MatlabOutline

open Catalog Law

namespace SourceTree

/-- The text in the file of a unit has the fault `e`. -/
def Fails (tree : SourceTree) (dotted name : String) (e : ParseError) : Prop :=
  ∃ bytes, tree.disk.read (tree.unitPath dotted name) = .ok bytes ∧
    let source := (SourceText.ofBytes bytes (some (tree.unitPath dotted name)) tree.settings.encoding).1
    (parseUnit source.location source.contents name dotted).result = .error e

theorem Fails.file_eq {tree : SourceTree} {dotted name : String} {e : ParseError}
    (fails : tree.Fails dotted name e) (unit : IsUnitName name) :
    tree.fileEntity (tree.unitPath dotted name) dotted = none ∧
      (tree.fileDiagnostics (tree.unitPath dotted name) dotted).filter
        (tree.disk.blames (tree.unitPath dotted name)) = [⟨.error, e.location, e.fault.message⟩] := by
  obtain ⟨bytes, readable, failed⟩ := fails
  obtain ⟨stem, extension⟩ := unit.stem?_join (tree.modulePath dotted)
  have plain : PathText.extension? (tree.unitPath dotted name) ≠ some "mlapp" := by
    rw [unitPath, extension]
    decide
  have loads := @loadsAlone_loadFile_unit tree _ dotted bytes plain readable
  rw [unitPath, stem, ← unitPath, Option.getD_some] at loads
  obtain ⟨entity, diagnostics⟩ := file_of_loadsAlone loads
  rw [entity, diagnostics]
  exact ⟨by rw [failed]; rfl, filter_diagnostics rfl failed⟩

/-- The list of members that a module gives is kept. -/
theorem holds_members {tree : SourceTree} {item : Item} {m : ModuleDoc} {t : Table Item} {c : Catalog}
    (isModule : item.module? = some m) (listed : ((tree.members item).run c).1 = some t) :
    ((tree.members item).run c).2.Holds (.members item.serial t) := by
  have kept := holds_once (tree.loadMembers m) (slot_members item.serial) c
  simp only [members, isModule] at listed ⊢
  rw [← Option.some.inj listed]
  exact kept

theorem tally_empty (tree : SourceTree) (dotted name : String) : tree.Tally dotted name False {} where
  errors := rfl
  listed x t there := by cases there
  known := False.elim

/-- The fault of a unit costs its module one member, and it is reported once: after the members were
listed, whatever lookups came before and whatever come later, one error names the file. -/
def IsContained (tree : SourceTree) (dotted name : String) (e : ParseError) : Prop :=
  ∀ given c, Session tree (Call.IsLookup tree) [] {} given c →
    ∀ item ∈ given, ∀ m, item.module? = some m → m.name = dotted →
      let listing := ((Call.members item).run tree).run c
      (∃ t, listing.1 = .table (some t) ∧ t.get? name = none) ∧
        ∀ given' c', Session tree (Call.IsLookup tree) (given ++ listing.1.items) listing.2 given' c' →
          c'.diagnostics.filter (tree.disk.blames (tree.unitPath dotted name)) =
            [⟨.error, e.location, e.fault.message⟩]

theorem Fails.isContained {tree : SourceTree} (proper : tree.disk.root.Proper) {dotted name : String}
    (unit : IsUnitName name) (alone : tree.IsAlone dotted name) {e : ParseError}
    (fails : tree.Fails dotted name e) : tree.IsContained dotted name e := by
  rintro given c session item inside m isModule rfl listing
  obtain ⟨absent, error⟩ := fails.file_eq unit
  obtain ⟨⟨flat, there⟩, t, listed, shown⟩ := session.exists_listing proper inside isModule
  obtain ⟨-, valid, -⟩ := exists_list_of_moduleDoc? there
  have answer : listing.1 = .table (some t) := congrArg Answer.table listed
  have after := session.call (.members item) (.flat trivial) (by simpa [Call.uses] using inside)
  refine ⟨⟨t, answer, ?_⟩, fun given' c' later => ?_⟩
  · rcases missing : t.get? name with _ | x
    · rfl
    · have declared : (tree.memberEntities m).get? name = some x.entity := by
        rw [← shown, Table.get?_map, missing]
        rfl
      rw [alone.get?_memberEntities proper there declared] at absent
      cases absent
  · have tally := Session.start.tally proper unit flat valid alone.file (tree.tally_empty m.name name) after
    have registered : listing.2.Holds (.module m.name (.found item)) :=
      (after.registers.2 item (List.mem_append_left _ inside)) m isModule
    have held : listing.2.Holds (.members item.serial t) := holds_members isModule listed
    have known : tree.Tally m.name name True listing.2 :=
      ⟨tally.errors, tally.listed, fun _ => tally.listed item t registered held⟩
    have last := after.tally proper unit flat valid alone.file known later
    rw [last.errors, last.known trivial, if_pos rfl, error]

theorem DifferIn.isAlone {tree tree' : SourceTree} {dotted name : String}
    (differ : tree.DifferIn tree' (tree.unitPath dotted name)) (alone : tree.IsAlone dotted name) :
    tree'.IsAlone dotted name where
  file := by
    rw [unitPath, differ.modulePath_eq, differ.isFile_eq]
    exact alone.file
  folder := by
    rw [differ.modulePath_eq, differ.isFolder_eq]
    exact alone.folder
  classFolder := by
    rw [differ.modulePath_eq, differ.isFolder_eq]
    exact alone.classFolder
  application := by
    rw [differ.modulePath_eq, differ.isFile_eq]
    exact alone.application

end SourceTree

/-- A bad file affects only itself. Two source trees that differ only in what the file of the unit `name`
in the folder of the module `dotted` contains have the same modules, whatever lookups came before. The
members of that module are the same and in the same order but for `name`, and those of all other modules
are the same. And a fault in the file is contained in either tree. -/
theorem members_beside_faulty_file {tree tree' : SourceTree} (proper : tree.disk.root.Proper)
    (proper' : tree'.disk.root.Proper) {dotted name : String} (unit : SourceTree.IsUnitName name)
    (flat : HasNoSlash dotted) (valid : SourceTree.isModuleName dotted = true)
    (alone : tree.IsAlone dotted name) (differ : tree.DifferIn tree' (tree.unitPath dotted name)) :
    (∀ given c given' c', Session tree (Call.IsLookup tree) [] {} given c →
      Session tree' (Call.IsLookup tree') [] {} given' c' →
      (∀ scope, HasNoSlash scope → ((tree'.module scope).run c').1.map Item.entity =
        ((tree.module scope).run c).1.map Item.entity) ∧
      ∀ item ∈ given, ∀ item' ∈ given', ∀ m m', item.module? = some m → item'.module? = some m' →
        m'.name = m.name → m' = m ∧
          ∃ t t', ((tree.members item).run c).1 = some t ∧ ((tree'.members item').run c').1 = some t' ∧
            (m.name = dotted → (t'.map Item.entity).without name = (t.map Item.entity).without name) ∧
            (m.name ≠ dotted → t'.map Item.entity = t.map Item.entity)) ∧
    (∀ e, tree.Fails dotted name e → tree.IsContained dotted name e) ∧
    ∀ e, tree'.Fails dotted name e → tree'.IsContained dotted name e := by
  have source := unit.isSource flat valid
  refine ⟨fun given c given' c' session session' => ⟨fun scope flat' => ?_, ?_⟩,
    fun e fails => fails.isContained proper unit alone,
    fun e fails => fails.isContained proper' unit (differ.isAlone alone)⟩
  · rw [session.moduleDoc_of_module proper flat', session'.moduleDoc_of_module proper' flat',
      differ.moduleDoc?_eq source flat' unit.unitFile_ne]
  · intro item inside item' inside' m m' isModule isModule' called
    obtain ⟨⟨flat', there⟩, t, listed, shown⟩ := session.exists_listing proper inside isModule
    obtain ⟨⟨-, there'⟩, t', listed', shown'⟩ := session'.exists_listing proper' inside' isModule'
    rw [called, differ.moduleDoc?_eq source flat' unit.unitFile_ne, there] at there'
    cases there'
    refine ⟨rfl, t, t', listed, listed', fun here => ?_, fun away => ?_⟩
    · rw [shown, shown']
      exact differ.memberEntities_without source proper flat' there unit rfl here
    · rw [shown, shown']
      exact differ.memberEntities_eq source proper unit.unitFile_ne flat' there away

/-- A function without a name, in the place of one that is well formed. -/
theorem members_beside_unnamed_function :
    let source (text : String) : Bytes := text.toList.map fun c => UInt8.ofNat c.toNat
    let tree (text : String) : SourceTree :=
      ⟨{ root := .folder [("f.m", .file (source text))] }, { root := "/" }⟩
    let good := tree "function f\nend\n"
    let bad := tree "function"
    let item : Item := ⟨0, .module { name := "", path := "/", doc := none }⟩
    let c := (((Call.module "").run good).run {}).2
    let c' := (((Call.module "").run bad).run {}).2
    let error : ParseError := ⟨{ file := some "/f.m", lines := some (1, 1) }, .missingFunctionName⟩
    good.DifferIn bad "/f.m" ∧ bad.Fails "" "f" error ∧
      (∃ t t', ((good.members item).run c).1 = some t ∧ ((bad.members item).run c').1 = some t' ∧
        (t'.map Item.entity).without "f" = (t.map Item.entity).without "f" ∧ t'.get? "f" = none) ∧
      (((Call.members item).run bad).run c').2.diagnostics.filter (bad.disk.blames "/f.m") =
        [⟨.error, error.location, error.fault.message⟩] := by
  intro source tree good bad item c c' error
  have proper (text : String) : (FileTree.folder [("f.m", .file (source text))]).Proper := by
    refine .folder _ (by simp; decide) ?_
    simpa using .file _
  have path : good.unitPath "" "f" = "/f.m" := by decide +kernel
  have path' : bad.unitPath "" "f" = "/f.m" := by decide +kernel
  have place : good.disk.placeOf "/f.m" = ["f.m"] := by decide +kernel
  have differ : good.DifferIn bad "/f.m" := ⟨rfl, rfl, place ▸ .folder [] [] nofun (.file _ _)⟩
  have alone : good.IsAlone "" "f" := by constructor <;> decide +kernel
  have fails : bad.Fails "" "f" error := ⟨source "function", by decide +kernel, by decide +kernel⟩
  have session := (@Session.ofRoot good item (by decide +kernel)).lookups
  have session' := (@Session.ofRoot bad item (by decide +kernel)).lookups
  have here : item ∈ [item] := List.mem_cons_self
  have flat : HasNoSlash "" := List.not_mem_nil
  obtain ⟨same, -, contained⟩ := members_beside_faulty_file (proper _) (proper _)
    ⟨by decide, by decide⟩ flat rfl alone (path ▸ differ)
  obtain ⟨-, t, t', listed, listed', others, -⟩ :=
    (same _ _ _ _ session session').2 item here item here _ _ rfl rfl rfl
  obtain ⟨⟨t'', answer, absent⟩, reported⟩ := contained error fails _ _ session' item here _ rfl rfl
  rw [path'] at reported
  have again : t'' = t' := by
    have listing : Answer.table ((bad.members item).run c').1 = .table (some t'') := answer
    rw [listed'] at listing
    cases listing
    rfl
  exact ⟨differ, fails, ⟨t, t', listed, listed', others rfl, again ▸ absent⟩, reported _ _ .start⟩

end MatlabOutline
