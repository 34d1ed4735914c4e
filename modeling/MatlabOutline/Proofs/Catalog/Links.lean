import MatlabOutline.Proofs.Catalog.Transparency

/-!
Linked catalogs: a module that is found as a member, or by a name that code uses, is the item that
its own name leads to. So there is one item for each module, however it is reached.
-/

namespace MatlabOutline

namespace Catalog

variable {α β : Type} {c c₁ c₂ : Catalog}

/-- A module that its own name leads to. Nothing is asked of other items. -/
def Registers (c : Catalog) (x : Item) : Prop :=
  ∀ m, x.module? = some m → c.Holds (.module m.name (.found x))

/-- The catalog has listed `x` under `key` in the module called `dotted`. -/
def Lists (c : Catalog) (dotted key : String) (x : Item) : Prop :=
  ∃ item t, c.Holds (.module dotted (.found item)) ∧ c.Holds (.members item.serial t) ∧
    t.get? key = some x

/-- The catalog has listed `x` as what the module `outer` means by `packages` and `last`: a member
that is no module, or else a package. -/
def Finds (c : Catalog) (outer : String) (packages : List String) (last : String) (x : Item) : Prop :=
  x.module? = none ∧ c.Lists (SourceTree.packageName outer packages) last x ∨
    x.module?.isSome ∧ c.Lists (SourceTree.packageName outer packages) ("+" ++ last) x

/-- What is asked of a result where all else in the catalog is given. -/
def Fits (c : Catalog) : Result → Prop
  | .module dotted r => ∀ x ∈ r.item?, ∃ m, x.module? = some m ∧ m.name = dotted
  | .file _ r => ∀ x ∈ r.item?, x.module? = none
  | .name name r => ∀ x ∈ r.item?, c.Registers x ∧
      ∃ outer, c.Finds outer (DottedName.trail (DottedName.splitLast name).1)
        (DottedName.splitLast name).2 x
  | .members _ t => ∀ e ∈ t.entries, c.Registers e.2
  | .bases _ l => ∀ x ∈ l, x.module? = none

/-- Every result in the catalog fits the others. -/
def Linked (c : Catalog) : Prop :=
  ∀ result, c.Holds result → c.Fits result

/-- Modules and members that are in the catalog `c` are also in `c₁`. -/
structure Retains (c c₁ : Catalog) : Prop where
  modules : ∀ dotted r, c.Holds (.module dotted r) → c₁.Holds (.module dotted r)
  members : ∀ serial t, c.Holds (.members serial t) → c₁.Holds (.members serial t)

theorem Retains.refl (c : Catalog) : c.Retains c :=
  ⟨fun _ _ => id, fun _ _ => id⟩

theorem Retains.trans (first : c.Retains c₁) (second : c₁.Retains c₂) : c.Retains c₂ :=
  ⟨fun dotted r held => second.modules dotted r (first.modules dotted r held),
    fun serial t held => second.members serial t (first.members serial t held)⟩

theorem Registers.mono {x : Item} (known : c.Registers x) (kept : c.Retains c₁) : c₁.Registers x :=
  fun m same => kept.modules _ _ (known m same)

theorem registers_of_module?_eq_none {x : Item} (none : x.module? = none) : c.Registers x :=
  fun m same => by simp [none] at same

theorem Lists.mono {dotted key : String} {x : Item} (listed : c.Lists dotted key x)
    (kept : c.Retains c₁) : c₁.Lists dotted key x := by
  obtain ⟨item, t, there, members, found⟩ := listed
  exact ⟨item, t, kept.modules _ _ there, kept.members _ _ members, found⟩

theorem Finds.mono {outer last : String} {packages : List String} {x : Item}
    (found : c.Finds outer packages last x) (kept : c.Retains c₁) :
    c₁.Finds outer packages last x :=
  found.imp (And.imp_right (·.mono kept)) (And.imp_right (·.mono kept))

theorem Fits.mono {result : Result} (fits : c.Fits result) (kept : c.Retains c₁) :
    c₁.Fits result := by
  cases result with
  | name name r =>
    intro x inside
    obtain ⟨known, outer, found⟩ := fits x inside
    exact ⟨known.mono kept, outer, found.mono kept⟩
  | members serial t => exact fun e inside => (fits e inside).mono kept
  | _ => exact fits

theorem linked_empty : Linked {} := by
  intro result held
  cases result <;> cases held

/-- The lookups that an action may come to: of files alone, of modules too, or of all. -/
inductive Reach
  | files
  | modules
  | all

/-- What an action within `reach` does to a catalog: it retains modules and members, and adds none
of those that are out of its reach. -/
structure Extends (reach : Reach) (c c₁ : Catalog) : Prop extends Retains c c₁ where
  sameModules : reach = .files → c₁.modules = c.modules
  sameMembers : reach ≠ .all → c₁.members = c.members

theorem Extends.trans {reach : Reach} (first : Extends reach c c₁) (second : Extends reach c₁ c₂) :
    Extends reach c c₂ where
  toRetains := first.toRetains.trans second.toRetains
  sameModules low := (second.sameModules low).trans (first.sameModules low)
  sameMembers low := (second.sameMembers low).trans (first.sameMembers low)

theorem retains_of_eq (modules : c₁.modules = c.modules) (members : c₁.members = c.members) :
    c.Retains c₁ :=
  ⟨fun _ _ held => by rwa [Holds, modules], fun _ _ held => by rwa [Holds, members]⟩

theorem extends_of_eq {reach : Reach} (modules : c₁.modules = c.modules)
    (members : c₁.members = c.members) : Extends reach c c₁ where
  toRetains := retains_of_eq modules members
  sameModules _ := modules
  sameMembers _ := members

theorem Extends.ofFiles {reach : Reach} (low : Extends .files c c₁) : Extends reach c c₁ :=
  extends_of_eq (low.sameModules rfl) (low.sameMembers nofun)

theorem Extends.ofModules (low : Extends .modules c c₁) : Extends .all c c₁ where
  toRetains := low.toRetains
  sameModules := nofun
  sameMembers _ := low.sameMembers nofun

/-- From every linked catalog that retains what is in `c₀`, `act` comes to a linked catalog again,
with a value of which `post` holds. -/
def Links (reach : Reach) (c₀ : Catalog) (act : CatalogM α) (post : Catalog → α → Prop) : Prop :=
  ∀ c, c₀.Retains c → c.Linked →
    Extends reach c (act.run c).2 ∧ (act.run c).2.Linked ∧ post (act.run c).2 (act.run c).1

variable {reach : Reach} {c₀ : Catalog} {act : CatalogM α} {f : α → CatalogM β}
  {post : Catalog → α → Prop} {last : Catalog → β → Prop}

theorem links_pure {a : α} (holds : ∀ c, c₀.Retains c → post c a) :
    Links reach c₀ (pure a) post :=
  fun c kept linked => ⟨extends_of_eq rfl rfl, linked, holds c kept⟩

theorem links_get {f : Catalog → CatalogM β} (next : ∀ c, Links reach c₀ (f c) last) :
    Links reach c₀ (get >>= f) last :=
  fun c => next c c

theorem Links.bind (first : Links reach c₀ act post)
    (second : ∀ c a, c₀.Retains c → post c a → Links reach c (f a) last) :
    Links reach c₀ (act >>= f) last := by
  intro c kept linked
  obtain ⟨grown, linked', holds⟩ := first c kept linked
  obtain ⟨grown', linked'', holds'⟩ :=
    second _ _ (kept.trans grown.toRetains) holds _ (.refl _) linked'
  exact ⟨grown.trans grown', linked'', holds'⟩

theorem Links.map (first : Links reach c₀ act post) {g : α → β}
    (holds : ∀ c a, c₀.Retains c → post c a → last c (g a)) :
    Links reach c₀ (do return g (← act)) last := by
  intro c kept linked
  obtain ⟨grown, linked', here⟩ := first c kept linked
  exact ⟨grown, linked', holds _ _ (kept.trans grown.toRetains) here⟩

theorem Links.weaken (first : Links reach c₀ act post) {post' : Catalog → α → Prop}
    (holds : ∀ c a, c₀.Retains c → post c a → post' c a) : Links reach c₀ act post' :=
  first.map holds

theorem Links.ofModules (low : Links .modules c₀ act post) : Links .all c₀ act post :=
  fun c kept linked => (low c kept linked).imp_left Extends.ofModules

/-- What is no result of a lookup plays no part. -/
theorem Linked.of_holds (linked : c.Linked) (kept : c.Retains c₁)
    (old : ∀ result, c₁.Holds result → c.Holds result) : c₁.Linked :=
  fun result held => (linked result (old result held)).mono kept

theorem Linked.remark (linked : c.Linked) (begun : List Key) (next : Nat)
    (diagnostics : List Diagnostic) (log : List LogRecord) :
    { c with begun, next, diagnostics, log }.Linked :=
  linked.of_holds (retains_of_eq rfl rfl) fun result held =>
    (holds_remark c begun next diagnostics log result).mp held

theorem links_of_remarks {ds : List Diagnostic} (remarks : Remarks act ds) :
    Links reach c₀ act fun _ _ => True := by
  intro c _ linked
  obtain ⟨log, run⟩ := remarks c
  rw [run]
  exact ⟨extends_of_eq rfl rfl, linked.remark c.begun c.next _ log, trivial⟩

theorem links_number (e : Entity) : Links reach c₀ (number e) fun _ x => x.entity = e :=
  fun c _ linked =>
    ⟨extends_of_eq rfl rfl, linked.remark c.begun (c.next + 1) c.diagnostics c.log, rfl⟩

theorem links_numberCopy (made : ClassDoc) (origin : Item) :
    Links reach c₀ (numberCopy made origin) fun _ x => x.entity = .cls made := by
  intro c _ linked
  have same : Extends reach c ((numberCopy made origin).run c).2 := by
    rw [run_numberCopy]
    exact extends_of_eq rfl rfl
  refine ⟨same, fun result held => ?_, by rw [run_numberCopy]⟩
  rcases (holds_numberCopy made origin c result).mp held with ⟨l, above, rfl⟩ | ⟨-, before⟩
  · exact linked (.bases origin.serial l) above
  · exact (linked result before).mono same.toRetains

/-- A lookup gives a result that fits, if its loader does, and keeps it. -/
theorem links_once {key : Key} {result : α → Result} {known : Catalog → Option α}
    {keep : α → Catalog → Catalog} {load : CatalogM α} (slot : Slot key result known keep)
    {low : Reach} (inner : Links low c₀ load fun c a => c.Fits (result a))
    (stays : ∀ c c₁ a, ¬c.Knows key → Extends low c c₁ →
      Extends reach c c₁ ∧ Extends reach c₁ (keep a c₁)) :
    Links reach c₀ (once key known keep load) fun c a => c.Holds (result a) ∧ c.Fits (result a) := by
  intro c kept linked
  rcases found : known c with _ | a
  · rw [run_once_of_unknown key known keep load found]
    have begins : Extends low c { c with begun := key :: c.begun } := extends_of_eq rfl rfl
    obtain ⟨grown, linked', fits⟩ := inner _ (kept.trans begins.toRetains)
      (linked.remark (key :: c.begun) c.next c.diagnostics c.log)
    have unknown : ¬c.Knows key := by simp [slot.knows_iff, found]
    obtain ⟨lower, last⟩ := stays c _ (load.run { c with begun := key :: c.begun }).1 unknown
      (begins.trans grown)
    have here := fits.mono last.toRetains
    refine ⟨lower.trans last, fun other held => ?_, (slot.holds_keep _ _ _).mpr (.inl rfl), here⟩
    rcases (slot.holds_keep _ _ other).mp held with rfl | ⟨-, before⟩
    · exact here
    · exact (linked' other before).mono last.toRetains
  · rw [once_of_known key known keep load c a found]
    have held := (slot.held c a).mp found
    exact ⟨extends_of_eq rfl rfl, linked, held, linked _ held⟩

theorem links_onceFile {path : String} {load : CatalogM Lookup}
    (inner : Links .files c₀ load fun _ r => ∀ x ∈ r.item?, x.module? = none) :
    Links reach c₀ (onceFile path load) fun _ r => ∀ x ∈ r.item?, x.module? = none :=
  (links_once (slot_file _) inner fun _ _ _ _ low =>
    ⟨low.ofFiles, extends_of_eq rfl rfl⟩).weaken fun _ _ _ holds => holds.2

theorem links_onceModule {dotted : String} {load : CatalogM Lookup}
    (inner : Links .files c₀ load fun _ r => ∀ x ∈ r.item?, ∃ m, x.module? = some m ∧ m.name = dotted) :
    Links .modules c₀ (onceModule dotted load) fun c r =>
      c.Holds (.module dotted r) ∧ c.Fits (.module dotted r) := by
  refine links_once (slot_module _) inner fun c c₁ a unknown low => ⟨low.ofFiles, ?_⟩
  refine ⟨⟨fun name r held => ?_, fun _ _ held => held⟩, by simp, fun _ => rfl⟩
  refine ((slot_module dotted).holds_keep a c₁ _).mpr (.inr ⟨fun same => unknown ?_, held⟩)
  cases same
  rw [Holds, low.sameModules rfl] at held
  exact ⟨.module dotted r, rfl, held⟩

theorem links_onceMembers {serial : Nat} {load : CatalogM (Table Item)}
    (inner : Links .modules c₀ load fun c t => ∀ e ∈ t.entries, c.Registers e.2) :
    Links .all c₀ (onceMembers serial load) fun c t =>
      c.Holds (.members serial t) ∧ ∀ e ∈ t.entries, c.Registers e.2 := by
  refine links_once (slot_members _) inner fun c c₁ a unknown low => ⟨low.ofModules, ?_⟩
  refine ⟨⟨fun _ _ held => held, fun s t held => ?_⟩, by simp, fun low => absurd rfl low⟩
  refine ((slot_members serial).holds_keep a c₁ _).mpr (.inr ⟨fun same => unknown ?_, held⟩)
  cases same
  rw [Holds, low.sameMembers (by simp)] at held
  exact ⟨.members serial t, rfl, held⟩

end Catalog

namespace SourceTree

open Catalog

variable {tree : SourceTree} {reach : Reach} {c₀ : Catalog}

theorem links_file (path scope : String) :
    Links reach c₀ (tree.file path scope) fun _ r => ∀ x ∈ r, x.module? = none := by
  rw [file_eq]
  refine (links_onceFile fun c _ linked => ?_).map fun _ _ _ holds => holds
  obtain ⟨r, log, item, run⟩ := tree.loadsAlone_loadFile path scope c
  rw [run]
  refine ⟨extends_of_eq rfl rfl, linked.remark c.begun _ _ log, fun x inside => ?_⟩
  rw [item] at inside
  obtain ⟨e, declared, rfl⟩ := Option.map_eq_some_iff.mp inside
  exact module?_eq_none_of_declaredIn (declaredIn_fileEntity declared)

theorem links_module (dotted : String) :
    Links .modules c₀ (tree.module dotted) fun c r => ∀ x ∈ r,
      c.Holds (.module dotted (.found x)) ∧ ∃ m, x.module? = some m ∧ m.name = dotted := by
  have load : Links .files c₀ (tree.loadModule dotted) fun _ r =>
      ∀ x ∈ r.item?, ∃ m, x.module? = some m ∧ m.name = dotted := by
    unfold loadModule
    dsimp only
    split
    · refine (links_of_remarks (remarks_note _ _ _)).bind fun c _ _ _ => ?_
      have docs : Links .files c (tree.folderDoc (tree.modulePath dotted) dotted) fun _ _ => True := by
        unfold folderDoc
        dsimp only
        split
        · exact (links_file _ _).map fun _ _ _ _ => trivial
        · exact links_pure fun _ _ => trivial
      refine docs.bind fun c doc _ _ => (links_number _).map fun c item _ made => ?_
      rintro x ⟨⟩
      exact ⟨_, by rw [Item.module?, made], rfl⟩
    · exact links_pure fun _ _ x inside => by cases inside
  refine (links_onceModule load).map fun c r _ holds x inside => ⟨?_, holds.2 x inside⟩
  cases r <;> cases inside
  exact holds.1

theorem registers_of_holds {c : Catalog} {dotted : String} {x : Item}
    (held : c.Holds (.module dotted (.found x)))
    (named : ∃ m, x.module? = some m ∧ m.name = dotted) : c.Registers x := by
  obtain ⟨m, same, rfl⟩ := named
  intro m' same'
  rw [same] at same'
  cases same'
  exact held

/-- A module that is in the catalog is found there. -/
theorem run_module_of_holds {c : Catalog} {dotted : String} {x : Item}
    (held : c.Holds (.module dotted (.found x))) : (tree.module dotted).run c = (some x, c) := by
  have known : (onceModule dotted (tree.loadModule dotted)).run c = (.found x, c) :=
    once_of_known _ _ _ _ c _ held
  rw [module, run_bind, known]
  rfl

theorem run_get?_of_holds {c : Catalog} {item : Item} {m : ModuleDoc} (isModule : item.module? = some m)
    {t : Table Item} (held : c.Holds (.members item.serial t)) (key : String) :
    (tree.get? item key).run c = (t.get? key, c) := by
  have known : (onceMembers item.serial (tree.loadMembers m)).run c = (t, c) :=
    once_of_known _ _ _ _ c _ held
  simp only [get?, members, isModule, run_bind, known, run_pure, Option.bind_some]

theorem links_mergeFiles (scope : String) (d : ClassDoc) (paths : List String) :
    Links .files c₀ (tree.mergeFiles scope d paths) fun _ _ => True := by
  induction paths generalizing c₀ d with
  | nil => exact links_pure fun _ _ => trivial
  | cons path r ih =>
    refine (links_file path scope).bind fun c found _ _ => ?_
    rcases found with _ | item
    · exact ih d
    · dsimp only
      split
      · exact ih _
      · exact (links_of_remarks (remarks_note _ _ _)).bind fun _ _ _ _ => ih d

theorem links_classFolder (path name scope : String) :
    Links reach c₀ (tree.classFolder path name scope) fun _ r => ∀ x ∈ r, x.module? = none := by
  refine (links_onceFile ?_).map fun _ _ _ holds => holds
  unfold loadClassFolder
  refine (links_file _ _).bind fun c found _ holds => ?_
  rcases found with _ | item
  · exact links_pure fun _ _ x inside => by cases inside
  dsimp only
  split
  · refine links_pure fun _ _ x inside => ?_
    cases inside
    exact holds item rfl
  · split
    · exact (links_of_remarks (remarks_report _ _)).map fun _ _ _ _ x inside => by cases inside
    · refine (links_mergeFiles scope _ _).bind fun c merged _ _ => ?_
      refine (links_numberCopy merged item).map fun c copy _ made x inside => ?_
      cases inside
      rw [Item.module?, made]

theorem links_member (m : ModuleDoc) (name : String) :
    Links .modules c₀ (tree.member m name) fun c r =>
      ∀ key x, r = some (key, some x) → c.Registers x := by
  have alone {c : Catalog} {r : Option Item} {key : String} (none : ∀ x ∈ r, x.module? = none)
      (k : String) (x : Item) (same : some (key, r) = some (k, some x)) : c.Registers x := by
    cases same
    exact registers_of_module?_eq_none (none x rfl)
  obtain ⟨run, -⟩ | ⟨cls, -, run, -⟩ | ⟨run, -⟩ | ⟨-, run, -⟩ := tree.member_cases m name
  · rw [run]
    exact links_pure fun _ _ _ _ same => by cases same
  · rw [run]
    exact (links_classFolder _ _ _).map fun _ _ _ => alone
  · rw [run]
    refine (links_module _).map fun c r _ holds key x same => ?_
    cases same
    exact registers_of_holds (holds x rfl).1 (holds x rfl).2
  · rw [run]
    exact (links_file _ _).map fun _ _ _ => alone

theorem links_addMembers (m : ModuleDoc) (names : List String) {t : Table Item}
    (before : ∀ e ∈ t.entries, c₀.Registers e.2) :
    Links .modules c₀ (tree.addMembers m t names) fun c t => ∀ e ∈ t.entries, c.Registers e.2 := by
  induction names generalizing c₀ t with
  | nil => exact links_pure fun c kept e inside => (before e inside).mono kept
  | cons name r ih =>
    refine (links_member m name).bind fun c found kept holds => ?_
    have still := fun e inside => (before e inside).mono kept
    split
    · next key item =>
      split
      · refine (links_of_remarks (remarks_note _ _ _)).bind fun c' _ kept' _ => ?_
        exact ih fun e inside => (still e inside).mono kept'
      · refine ih fun e inside => ?_
        rcases Table.mem_entries_insert inside with rfl | old
        · exact holds key item rfl
        · exact still e old
    · exact ih still

theorem links_loadMembers (m : ModuleDoc) :
    Links .modules c₀ (tree.loadMembers m) fun c t => ∀ e ∈ t.entries, c.Registers e.2 := by
  unfold loadMembers
  split
  · exact (links_of_remarks (remarks_report _ _)).map fun _ _ _ _ e inside => by cases inside
  · exact links_addMembers m _ fun e inside => by cases inside

theorem links_members (item : Item) :
    Links .all c₀ (tree.members item) fun c r => ∀ t ∈ r,
      c.Holds (.members item.serial t) ∧ ∀ e ∈ t.entries, c.Registers e.2 := by
  unfold members
  split
  · next m _ =>
    refine (links_onceMembers (links_loadMembers m)).map fun c t _ holds => ?_
    rintro _ ⟨⟩
    exact holds
  · exact links_pure fun _ _ t inside => by cases inside

theorem links_get? (item : Item) (key : String) :
    Links .all c₀ (tree.get? item key) fun c r => ∀ x ∈ r, c.Registers x ∧
      ∃ t, c.Holds (.members item.serial t) ∧ t.get? key = some x := by
  refine (links_members item).map fun c r _ holds x inside => ?_
  obtain ⟨t, rfl, found⟩ := Option.bind_eq_some_iff.mp inside
  obtain ⟨held, known⟩ := holds t rfl
  exact ⟨known _ (Table.mem_entries_of_get? found), t, held, found⟩

theorem links_findIn (outer : String) (packages : List String) (last : String) :
    Links .all c₀ (tree.findIn outer packages last) fun c r => ∀ x ∈ r,
      c.Registers x ∧ c.Finds outer packages last x := by
  refine (links_module _).ofModules.bind fun c found _ holds => ?_
  rcases found with _ | item
  · exact links_pure fun _ _ x inside => by cases inside
  have there := (holds item rfl).1
  refine (links_get? item last).bind fun c' plain kept fetched => ?_
  have there' := kept.modules _ _ there
  split
  · next x same =>
    refine links_pure fun c'' kept' y inside => ?_
    cases inside
    obtain ⟨fetchedHere, single⟩ := Option.filter_eq_some_iff.mp same
    obtain ⟨known, t, held, found⟩ := fetched x fetchedHere
    have listed : c'.Lists (packageName outer packages) last x := ⟨item, t, there', held, found⟩
    exact ⟨known.mono kept', .inl ⟨by simpa using single, listed.mono kept'⟩⟩
  · refine (links_get? item _).map fun c'' r kept' fetched x inside => ?_
    obtain ⟨fetchedHere, single⟩ := Option.filter_eq_some_iff.mp inside
    obtain ⟨known, t, held, found⟩ := fetched x fetchedHere
    exact ⟨known, .inr ⟨single, item, t, kept'.modules _ _ there', held, found⟩⟩

theorem links_searchLevel (packages : List String) (last : String) (folders : List String) :
    Links .all c₀ (tree.searchLevel packages last folders) fun c r => ∀ x, r = .inl x →
      c.Registers x ∧ ∃ outer, c.Finds outer packages last x := by
  induction folders generalizing c₀ with
  | nil => exact links_pure fun _ _ x same => by cases same
  | cons folder r ih =>
    refine (links_module folder).ofModules.bind fun c found _ _ => ?_
    rcases found with _ | item
    · exact ih
    refine (links_findIn folder packages last).bind fun c found _ holds => ?_
    rcases found with _ | x
    · refine (links_members item).bind fun c t _ _ => ih.bind fun c more _ later => ?_
      cases more with
      | inl x =>
        refine links_pure fun c' kept y same => ?_
        cases same
        obtain ⟨known, outer, found⟩ := later x rfl
        exact ⟨known.mono kept, outer, found.mono kept⟩
      | inr inner => exact links_pure fun _ _ x same => by cases same
    · refine links_pure fun c' kept y same => ?_
      cases same
      exact ⟨(holds x rfl).1.mono kept, folder, (holds x rfl).2.mono kept⟩

theorem links_searchLevels (packages : List String) (last : String) (depth : Nat)
    (folders : List String) :
    Links .all c₀ (tree.searchLevels packages last depth folders) fun c r => ∀ x ∈ r,
      c.Registers x ∧ ∃ outer, c.Finds outer packages last x := by
  induction depth generalizing c₀ folders with
  | zero => cases folders <;> exact links_pure fun _ _ x inside => by cases inside
  | succ n ih =>
    cases folders with
    | nil => exact links_pure fun _ _ x inside => by cases inside
    | cons folder r =>
      refine (links_searchLevel packages last (folder :: r)).bind fun c found _ holds => ?_
      cases found with
      | inl x =>
        refine links_pure fun c' kept y inside => ?_
        cases inside
        obtain ⟨known, outer, found⟩ := holds x rfl
        exact ⟨known.mono kept, outer, found.mono kept⟩
      | inr inner => exact ih inner

theorem links_codeName (name : String) :
    Links .all c₀ (tree.codeName name) fun c r => ∀ x ∈ r, c.Registers x ∧
      ∃ outer, c.Finds outer (DottedName.trail (DottedName.splitLast name).1)
        (DottedName.splitLast name).2 x := by
  unfold codeName
  split
  · have load : Links .all c₀ (tree.loadCodeName name) fun c r => c.Fits (.name name r) := by
      refine links_get fun c => (links_searchLevels _ _ (tree.depthBound c) [""]).bind fun c found _ holds => ?_
      rcases found with _ | item
      · exact links_pure fun _ _ x inside => by cases inside
      · refine (links_of_remarks (remarks_note _ _ _)).map fun c' _ kept _ x inside => ?_
        cases inside
        obtain ⟨known, outer, found⟩ := holds item rfl
        exact ⟨known.mono kept, outer, found.mono kept⟩
    exact (links_once (slot_name name) load fun c c₁ a _ low =>
      ⟨low, extends_of_eq rfl rfl⟩).map fun c r _ holds => holds.2
  · exact links_pure fun _ _ x inside => by cases inside

theorem links_entity (name : String) :
    Links .all c₀ (tree.entity name) fun c r => ∀ x ∈ r, c.Registers x := by
  refine (links_module _).ofModules.bind fun c found _ holds => ?_
  rcases found with _ | item
  · refine (links_module _).ofModules.bind fun c found _ holds => ?_
    rcases found with _ | item
    · exact links_pure fun _ _ x inside => by cases inside
    · exact (links_get? item _).weaken fun c r _ holds x inside => (holds x inside).1
  · refine links_pure fun c kept x inside => ?_
    cases inside
    exact (registers_of_holds (holds item rfl).1 (holds item rfl).2).mono kept

theorem links_resolve (name : String) (within : Option String) :
    Links .all c₀ (tree.resolve name within) fun c r => ∀ x ∈ r, c.Registers x := by
  have anywhere (c₀ : Catalog) :
      Links .all c₀ (tree.resolveGlobal name) fun c r => ∀ x ∈ r, c.Registers x := by
    refine (links_entity name).bind fun c r _ holds => ?_
    rcases r with _ | item
    · exact (links_codeName name).weaken fun c r _ holds x inside => (holds x inside).1
    · exact links_pure fun c kept x inside => (holds x inside).mono kept
  unfold resolve
  split
  · exact anywhere c₀
  · refine (links_entity _).bind fun c r _ holds => ?_
    rcases r with _ | item
    · exact anywhere c
    · exact links_pure fun c kept x inside => (holds x inside).mono kept

theorem links_superclass (d : ClassDoc) (name : String) :
    Links .all c₀ (tree.superclass d name) fun _ r => ∀ x ∈ r, x.module? = none := by
  have remarked {act : CatalogM Unit} {ds : List Diagnostic} (remarks : Remarks act ds)
      (c₀ : Catalog) : Links .all c₀ (do act; return none)
        fun _ (r : Option Item) => ∀ x ∈ r, x.module? = none :=
    (links_of_remarks remarks).map fun _ _ _ _ x inside => by cases inside
  refine (links_resolve name (some d.scope)).bind fun c found _ _ => ?_
  rcases found with _ | item
  · dsimp only
    split
    · exact remarked (remarks_note _ _ _) c
    · exact remarked ((remarks_note _ _ _).bind fun _ => remarks_record _) c
  · dsimp only
    split
    · next cls =>
      refine links_pure fun _ _ x inside => ?_
      cases inside
      obtain ⟨d', same⟩ := Option.isSome_iff_exists.mp cls
      rw [Item.module?, Item.entity_of_class? same]
    · exact remarked ((remarks_note _ _ _).bind fun _ => remarks_record _) c

theorem links_loadBases (d : ClassDoc) (names : List String) :
    Links .all c₀ (tree.loadBases d names) fun _ l => ∀ x ∈ l, x.module? = none := by
  induction names generalizing c₀ with
  | nil => exact links_pure fun _ _ x inside => by cases inside
  | cons name r ih =>
    refine (links_superclass d name).bind fun c item _ first => ?_
    refine ih.map fun c later _ rest x inside => ?_
    rcases List.mem_append.mp inside with here | below
    · exact first x (Option.mem_toList.mp here)
    · exact rest x below

theorem links_bases (item : Item) :
    Links .all c₀ (tree.bases item) fun _ r => ∀ l ∈ r, ∀ x ∈ l, x.module? = none := by
  unfold bases
  split
  · refine (links_once (slot_bases _) (links_loadBases _ _) fun c c₁ a _ low =>
      ⟨low, extends_of_eq rfl rfl⟩).map fun c l _ holds => ?_
    rintro _ ⟨⟩
    exact holds.2
  · exact links_pure fun _ _ l inside => by cases inside

/-- A flat call leaves the catalog linked, and its own name leads to every module that it gives. -/
theorem links_call {call : Call} (flat : call.IsFlat) :
    Links .all c₀ (call.run tree) fun c a => ∀ x ∈ a.items, c.Registers x := by
  have one {act : CatalogM (Option Item)}
      (links : Links .all c₀ act fun c r => ∀ x ∈ r, c.Registers x) :
      Links .all c₀ (do return Answer.one (← act)) fun c a => ∀ x ∈ a.items, c.Registers x :=
    links.map fun c r _ holds x inside => holds x (Option.mem_toList.mp inside)
  cases call with
  | module dotted =>
    exact one ((links_module dotted).ofModules.weaken fun c r _ holds x inside =>
      registers_of_holds (holds x inside).1 (holds x inside).2)
  | entity name => exact one (links_entity name)
  | resolve name within => exact one (links_resolve name within)
  | members item =>
    refine (links_members item).map fun c r _ holds x inside => ?_
    rcases r with _ | t
    · cases inside
    · obtain ⟨e, member, rfl⟩ := List.mem_map.mp inside
      exact (holds t rfl).2 e member
  | get item key =>
    exact one ((links_get? item key).weaken fun c r _ holds x inside => (holds x inside).1)
  | bases item =>
    refine (links_bases item).map fun c r _ holds x inside => ?_
    rcases r with _ | l
    · cases inside
    · exact registers_of_module?_eq_none (holds l rfl x inside)
  | _ => exact flat.elim

end SourceTree

/-- After any number of flat calls the catalog is linked, and its own name leads to every module at
hand. -/
theorem Session.linked {tree : SourceTree} {given : List Item} {c : Catalog}
    (session : Session tree Call.IsFlat [] {} given c) : c.Linked ∧ ∀ x ∈ given, c.Registers x := by
  induction session with
  | start => exact ⟨Catalog.linked_empty, fun _ member => by cases member⟩
  | @call given c before call may about ih =>
    obtain ⟨grown, linked, known⟩ := SourceTree.links_call may c (.refl c) ih.1
    refine ⟨linked, fun x member => ?_⟩
    rcases List.mem_append.mp member with old | new
    · exact (ih.2 x old).mono grown.toRetains
    · exact known x new

end MatlabOutline
