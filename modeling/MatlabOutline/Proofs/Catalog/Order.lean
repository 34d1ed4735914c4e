import MatlabOutline.Proofs.Catalog.Files
import Mathlib.Data.Prod.Lex
import Mathlib.Order.OrderDual
import Mathlib.Data.List.Perm.Lattice

/-!
The order of loading. The keys have ranks, and the loader of a key begins keys of lower rank only.
So no key begins twice, what was known stays as it was, and every diagnostic belongs to one key.
-/

namespace MatlabOutline

/-- A result under its key. -/
inductive Result
  | module (name : String) (r : Lookup)
  | file (path : String) (r : Lookup)
  | name (name : String) (r : Lookup)
  | members (serial : Nat) (t : Table Item)
  | bases (serial : Nat) (l : List Item)

namespace Result

def key : Result → Key
  | .module dotted _ => .module dotted
  | .file path _ => .file path
  | .name dotted _ => .name dotted
  | .members serial _ => .members serial
  | .bases serial _ => .bases serial

/-- Superclasses only of items with serial numbers below `bound`. -/
def Below (bound : Nat) : Result → Prop
  | .bases serial _ => serial < bound
  | _ => True

theorem Below.mono {low high : Nat} (le : low ≤ high) {result : Result} (below : result.Below low) :
    result.Below high := by
  cases result with
  | bases serial l => exact lt_of_lt_of_le below le
  | _ => trivial

end Result

namespace Catalog

variable {α β : Type} {c c₁ c₂ : Catalog}

/-- The result is in the catalog. -/
def Holds (c : Catalog) : Result → Prop
  | .module name r => c.modules.get? name = some r
  | .file path r => c.files.get? path = some r
  | .name name r => c.names.get? name = some r
  | .members serial t => c.members.lookup serial = some t
  | .bases serial l => c.bases.lookup serial = some l

/-- Some result of `key` is in the catalog. -/
def Knows (c : Catalog) (key : Key) : Prop :=
  ∃ result : Result, result.key = key ∧ c.Holds result

@[simp]
theorem holds_remark (c : Catalog) (begun : List Key) (next : Nat) (diagnostics : List Diagnostic)
    (log : List LogRecord) (result : Result) :
    { c with begun, next, diagnostics, log }.Holds result ↔ c.Holds result := by
  cases result <;> rfl

@[simp]
theorem knows_remark (c : Catalog) (begun : List Key) (next : Nat) (diagnostics : List Diagnostic)
    (log : List LogRecord) (key : Key) :
    { c with begun, next, diagnostics, log }.Knows key ↔ c.Knows key := by
  simp [Knows]

/-- Results that are in the catalog `c` are also in `c₁`. Of superclasses this is only said for
serial numbers below `bound`. -/
def Grown (bound : Nat) (c c₁ : Catalog) : Prop :=
  ∀ result : Result, result.Below bound → c.Holds result → c₁.Holds result

theorem Grown.refl (bound : Nat) (c : Catalog) : Grown bound c c :=
  fun _ _ => id

theorem Grown.trans {low high : Nat} (le : low ≤ high) (first : Grown low c c₁)
    (second : Grown high c₁ c₂) : Grown low c c₂ :=
  fun result below held => second result (below.mono le) (first result below held)

end Catalog

namespace Key

/-- Superclasses are found by names, names in members of folders, members by folders, folders by
files, and a class folder by the files in it. -/
def rank : Key → ℕ ×ₗ ℕᵒᵈ
  | .bases _ => toLex (4, OrderDual.toDual 0)
  | .name _ => toLex (3, OrderDual.toDual 0)
  | .members _ => toLex (2, OrderDual.toDual 0)
  | .module _ => toLex (1, OrderDual.toDual 0)
  | .file path => toLex (0, OrderDual.toDual (PathText.steps path).length)

/-- Above the rank of every key. -/
def top : ℕ ×ₗ ℕᵒᵈ :=
  toLex (5, OrderDual.toDual 0)

theorem rank_lt_top (key : Key) : key.rank < top := by
  cases key <;> simp [rank, top, Prod.Lex.toLex_lt_toLex]

theorem rank_name_lt_bases (name : String) (serial : Nat) :
    (Key.name name).rank < (bases serial).rank := by
  simp [rank, Prod.Lex.toLex_lt_toLex]

theorem rank_members_lt_name (serial : Nat) (name : String) :
    (members serial).rank < (Key.name name).rank := by
  simp [rank, Prod.Lex.toLex_lt_toLex]

theorem rank_module_lt_members (name : String) (serial : Nat) :
    (module name).rank < (members serial).rank := by
  simp [rank, Prod.Lex.toLex_lt_toLex]

theorem rank_file_lt_module (path name : String) : (file path).rank < (module name).rank := by
  simp [rank, Prod.Lex.toLex_lt_toLex]

/-- What stands in a folder has a lower rank than the folder. -/
theorem rank_file_join_lt {name : String} (entry : IsEntryName name) (path : String) :
    (file (PathText.normal (PathText.join path name))).rank < (file (PathText.normal path)).rank := by
  refine Prod.Lex.toLex_lt_toLex.mpr (.inr ⟨rfl, OrderDual.toDual_lt_toDual.mpr ?_⟩)
  rw [PathText.steps_normal, PathText.steps_normal, PathText.steps_join entry, List.length_append]
  exact Nat.lt_succ_self _

/-- A diagnostic that the loader of a key may record, apart from those of files. -/
def Says : Key → Diagnostic → Prop
  | .members _, d => ∃ path f, d = ⟨.error, .ofFile path, (LoadError.read f).message⟩
  | .bases _, d => ∃ c : ClassDoc, d.severity = .warning ∧ d.location = c.location ∧
      ∃ name, d.text = c.notFound name ∨ ∃ kind, d.text = c.notClass name kind
  | _, _ => False

end Key

namespace SourceTree

/-- The diagnostics that the loader of a key records: those of one file, none for a class folder,
and for other keys what they may say. -/
def Reports (tree : SourceTree) : Key → List Diagnostic → Prop
  | .file key, ds => ds = [] ∨
      ∃ path scope, PathText.normal path = key ∧ ds = tree.fileDiagnostics path scope
  | key, ds => ∀ d ∈ ds, key.Says d

end SourceTree

namespace Catalog

/-- What a computation that begins only keys below `bound` does to a catalog: the keys `new` were
begun, each with the diagnostics that belong to it, and are known now. Other diagnostics that were
recorded are `loose`. -/
structure Loaded (tree : SourceTree) (bound : ℕ ×ₗ ℕᵒᵈ) (loose : List Diagnostic)
    (new : List (Key × List Diagnostic)) (c c₁ : Catalog) : Prop where
  grown : Grown c.next c c₁
  next : c.next ≤ c₁.next
  knows : ∀ key, c.Knows key → c₁.Knows key
  frame : ∀ key, c₁.Knows key →
    c.Knows key ∨ key ∈ new.map Prod.fst ∨ ∃ serial, key = .bases serial ∧ c.next ≤ serial
  begun : c₁.begun = new.map Prod.fst ++ c.begun
  nodup : (new.map Prod.fst).Nodup
  facts : ∀ e ∈ new, e.1.rank < bound ∧ ¬c.Knows e.1 ∧ c₁.Knows e.1 ∧ tree.Reports e.1 e.2
  diagnostics : c₁.diagnostics.Perm (c.diagnostics ++ (loose ++ new.flatMap Prod.snd))

/-- Every key below `bound` that was begun is known: its loading is over. -/
def Clear (bound : ℕ ×ₗ ℕᵒᵈ) (c : Catalog) : Prop :=
  ∀ key ∈ c.begun, key.rank < bound → c.Knows key

variable {tree : SourceTree} {bound : ℕ ×ₗ ℕᵒᵈ} {loose loose' : List Diagnostic}
  {new new' : List (Key × List Diagnostic)}

theorem Loaded.remark (tree : SourceTree) (bound : ℕ ×ₗ ℕᵒᵈ) (c : Catalog) {next : Nat}
    (le : c.next ≤ next) (ds : List Diagnostic) (log : List LogRecord) :
    Loaded tree bound ds [] c { c with next, diagnostics := c.diagnostics ++ ds, log } where
  grown result _ held := (holds_remark c c.begun next _ log result).mpr held
  next := le
  knows key known := by simpa using known
  frame key known := .inl (by simpa using known)
  begun := rfl
  nodup := List.nodup_nil
  facts e member := by cases member
  diagnostics := by simp

theorem Loaded.refl (tree : SourceTree) (bound : ℕ ×ₗ ℕᵒᵈ) (c : Catalog) :
    Loaded tree bound [] [] c c := by
  simpa using remark tree bound c le_rfl [] c.log

theorem Loaded.known_of_mem (loaded : Loaded tree bound loose new c c₁) {key : Key}
    (member : key ∈ new.map Prod.fst) : key.rank < bound ∧ ¬c.Knows key ∧ c₁.Knows key := by
  obtain ⟨e, inside, rfl⟩ := List.mem_map.mp member
  obtain ⟨lower, unknown, known, -⟩ := loaded.facts e inside
  exact ⟨lower, unknown, known⟩

theorem Loaded.clear (loaded : Loaded tree bound loose new c c₁) (clear : Clear bound c) :
    Clear bound c₁ := by
  intro key member lower
  rw [loaded.begun, List.mem_append] at member
  rcases member with late | early
  · exact (loaded.known_of_mem late).2.2
  · exact loaded.knows key (clear key early lower)

theorem Loaded.trans (first : Loaded tree bound loose new c c₁)
    (second : Loaded tree bound loose' new' c₁ c₂) :
    Loaded tree bound (loose ++ loose') (new' ++ new) c c₂ where
  grown := first.grown.trans first.next second.grown
  next := first.next.trans second.next
  knows key known := second.knows key (first.knows key known)
  frame key known := by
    rw [List.map_append, List.mem_append]
    rcases second.frame key known with known | late | ⟨serial, rfl, le⟩
    · rcases first.frame key known with old | early | fresh
      · exact .inl old
      · exact .inr (.inl (.inr early))
      · exact .inr (.inr fresh)
    · exact .inr (.inl (.inl late))
    · exact .inr (.inr ⟨serial, rfl, first.next.trans le⟩)
  begun := by rw [second.begun, first.begun, List.map_append, List.append_assoc]
  nodup := by
    rw [List.map_append, List.nodup_append']
    exact ⟨second.nodup, first.nodup, fun key late early =>
      (second.known_of_mem late).2.1 (first.known_of_mem early).2.2⟩
  facts e inside := by
    rcases List.mem_append.mp inside with late | early
    · obtain ⟨lower, unknown, known, reports⟩ := second.facts e late
      exact ⟨lower, fun k => unknown (first.knows _ k), known, reports⟩
    · obtain ⟨lower, unknown, known, reports⟩ := first.facts e early
      exact ⟨lower, unknown, second.knows _ known, reports⟩
  diagnostics := by
    refine second.diagnostics.trans ((first.diagnostics.append_right _).trans ?_)
    simp only [List.flatMap_append, List.append_assoc, List.perm_append_left_iff]
    exact List.perm_append_comm.trans (.of_eq (List.append_assoc _ _ _))

/-- A computation that begins only keys below `bound`, if none of these is being loaded. What it
leaves to the loader around it are diagnostics in `left`. -/
def Orderly (tree : SourceTree) (bound : ℕ ×ₗ ℕᵒᵈ) (left : Diagnostic → Prop) (act : CatalogM α) :
    Prop :=
  ∀ c, Clear bound c → ∃ loose new, (∀ d ∈ loose, left d) ∧ Loaded tree bound loose new c (act.run c).2

variable {left : Diagnostic → Prop}

theorem orderly_of_remarks {act : CatalogM α} {ds : List Diagnostic} (remarks : Remarks act ds)
    (said : ∀ d ∈ ds, left d) : Orderly tree bound left act := by
  intro c _
  obtain ⟨log, run⟩ := remarks c
  exact ⟨ds, [], said, run ▸ .remark tree bound c le_rfl ds log⟩

theorem orderly_pure (a : α) : Orderly tree bound left (pure a) :=
  orderly_of_remarks (remarks_pure a) (by simp)

theorem orderly_note (level : LogLevel) (origin : LogOrigin) (message : String) :
    Orderly tree bound left (note level origin message) :=
  orderly_of_remarks (remarks_note level origin message) (by simp)

theorem Orderly.bind {act : CatalogM α} {f : α → CatalogM β} (first : Orderly tree bound left act)
    (second : ∀ a, Orderly tree bound left (f a)) : Orderly tree bound left (act >>= f) := by
  intro c clear
  obtain ⟨loose, new, said, loaded⟩ := first c clear
  obtain ⟨loose', new', said', loaded'⟩ := second (act.run c).1 _ (loaded.clear clear)
  refine ⟨loose ++ loose', new' ++ new, ?_, loaded.trans loaded'⟩
  simpa [or_imp, forall_and] using ⟨said, said'⟩

theorem orderly_get {f : Catalog → CatalogM β} (next : ∀ c, Orderly tree bound left (f c)) :
    Orderly tree bound left (get >>= f) :=
  fun c clear => next c c clear

theorem Orderly.map {act : CatalogM α} (first : Orderly tree bound left act) (f : α → β) :
    Orderly tree bound left (do return f (← act)) :=
  first.bind fun a => orderly_pure (f a)

theorem orderly_number (e : Entity) : Orderly tree bound left (number e) := by
  intro c _
  refine ⟨[], [], by simp, ?_⟩
  have run : ((number e).run c).2 =
      { c with next := c.next + 1, diagnostics := c.diagnostics ++ [], log := c.log } := by
    rw [List.append_nil]
    rfl
  rw [run]
  exact .remark tree bound c (Nat.le_succ _) [] c.log

theorem Orderly.mono {act : CatalogM α} (orderly : Orderly tree bound left act) {high : ℕ ×ₗ ℕᵒᵈ}
    (le : bound ≤ high) : Orderly tree high left act := by
  intro c clear
  obtain ⟨loose, new, said, loaded⟩ := orderly c fun key member below =>
    clear key member (below.trans_le le)
  exact ⟨loose, new, said, { loaded with
    facts := fun e inside => (loaded.facts e inside).imp_left (lt_of_lt_of_le · le) }⟩

/-- A copy gets the next serial number, and under it the superclasses that its origin has. -/
theorem run_numberCopy (made : ClassDoc) (origin : Item) (c : Catalog) :
    (numberCopy made origin).run c = (⟨c.next, .cls made⟩,
      { c with next := c.next + 1,
               bases := ((c.bases.lookup origin.serial).map (c.next, ·)).toList ++ c.bases }) := by
  simp only [numberCopy, run_bind]
  have known : ((get : CatalogM Catalog).run ((number (.cls made)).run c).2).1.bases = c.bases := rfl
  rw [known]
  cases c.bases.lookup origin.serial <;> rfl

theorem lookup_cons (serial other : Nat) (value : α) (l : List (Nat × α)) :
    ((serial, value) :: l).lookup other = if serial = other then some value else l.lookup other := by
  rw [List.lookup_cons]
  by_cases same : serial = other
  · simp [same]
  · simp [same, beq_false_of_ne (Ne.symm same)]

/-- Under the next serial number stand the superclasses of the origin, and nothing else changes. -/
theorem holds_numberCopy (made : ClassDoc) (origin : Item) (c : Catalog) (result : Result) :
    ((numberCopy made origin).run c).2.Holds result ↔
      (∃ l, c.bases.lookup origin.serial = some l ∧ result = .bases c.next l) ∨
      (c.bases.lookup origin.serial = none ∨ result.key ≠ .bases c.next) ∧ c.Holds result := by
  rw [run_numberCopy]
  rcases c.bases.lookup origin.serial with _ | above
  · simp
  · cases result with
    | bases serial l =>
      by_cases same : serial = c.next
      · simp [Holds, Result.key, same, eq_comm]
      · simp [Holds, Result.key, lookup_cons, same, Ne.symm same]
    | _ => simp [Holds, Result.key]

theorem orderly_numberCopy (made : ClassDoc) (origin : Item) :
    Orderly tree bound left (numberCopy made origin) := by
  intro c _
  refine ⟨[], [], by simp, ?_, ?_, ?_, ?_, ?_, List.nodup_nil, by simp, ?_⟩
  · intro result below held
    refine (holds_numberCopy made origin c result).mpr (.inr ⟨.inr fun same => ?_, held⟩)
    cases result <;> cases same
    exact lt_irrefl _ below
  · rw [run_numberCopy]
    exact Nat.le_succ _
  · rintro key ⟨result, rfl, held⟩
    by_cases same : result.key = .bases c.next
    · rcases above : c.bases.lookup origin.serial with _ | l
      · exact ⟨result, rfl, (holds_numberCopy made origin c result).mpr (.inr ⟨.inl above, held⟩)⟩
      · exact ⟨.bases c.next l, same.symm,
          (holds_numberCopy made origin c _).mpr (.inl ⟨l, above, rfl⟩)⟩
    · exact ⟨result, rfl, (holds_numberCopy made origin c result).mpr (.inr ⟨.inr same, held⟩)⟩
  · rintro key ⟨result, rfl, held⟩
    rcases (holds_numberCopy made origin c result).mp held with ⟨l, -, rfl⟩ | ⟨-, before⟩
    · exact .inr (.inr ⟨c.next, rfl, le_rfl⟩)
    · exact .inl ⟨result, rfl, before⟩
  · rw [run_numberCopy]
    rfl
  · rw [run_numberCopy]
    simp

/-- The place in a catalog where the result of `key` is looked up and kept. -/
structure Slot (key : Key) (result : α → Result) (known : Catalog → Option α)
    (keep : α → Catalog → Catalog) : Prop where
  held : ∀ c a, known c = some a ↔ c.Holds (result a)
  key_eq : ∀ other : Result, other.key = key ↔ ∃ a, other = result a
  holds_keep : ∀ a c other, (keep a c).Holds other ↔ other = result a ∨ other.key ≠ key ∧ c.Holds other
  begun : ∀ a c, (keep a c).begun = c.begun
  next : ∀ a c, (keep a c).next = c.next
  diagnostics : ∀ a c, (keep a c).diagnostics = c.diagnostics

theorem slot_module (name : String) : Slot (.module name) (.module name) (·.modules.get? name)
    (fun result c => { c with modules := c.modules.insert name result }) where
  held _ _ := Iff.rfl
  key_eq other := by cases other <;> simp [Result.key, eq_comm]
  holds_keep a c other := by
    cases other with
    | module n r =>
      by_cases same : name = n <;> simp [Holds, Result.key, Table.get?_insert, same, eq_comm]
    | _ => simp [Holds, Result.key]
  begun _ _ := rfl
  next _ _ := rfl
  diagnostics _ _ := rfl

theorem slot_file (path : String) : Slot (.file path) (.file path) (·.files.get? path)
    (fun result c => { c with files := c.files.insert path result }) where
  held _ _ := Iff.rfl
  key_eq other := by cases other <;> simp [Result.key, eq_comm]
  holds_keep a c other := by
    cases other with
    | file p r =>
      by_cases same : path = p <;> simp [Holds, Result.key, Table.get?_insert, same, eq_comm]
    | _ => simp [Holds, Result.key]
  begun _ _ := rfl
  next _ _ := rfl
  diagnostics _ _ := rfl

theorem slot_name (name : String) : Slot (.name name) (.name name) (·.names.get? name)
    (fun result c => { c with names := c.names.insert name result }) where
  held _ _ := Iff.rfl
  key_eq other := by cases other <;> simp [Result.key, eq_comm]
  holds_keep a c other := by
    cases other with
    | name n r =>
      by_cases same : name = n <;> simp [Holds, Result.key, Table.get?_insert, same, eq_comm]
    | _ => simp [Holds, Result.key]
  begun _ _ := rfl
  next _ _ := rfl
  diagnostics _ _ := rfl

theorem slot_members (serial : Nat) :
    Slot (.members serial) (.members serial) (·.members.lookup serial)
      (fun result c => { c with members := (serial, result) :: c.members }) where
  held _ _ := Iff.rfl
  key_eq other := by cases other <;> simp [Result.key, eq_comm]
  holds_keep a c other := by
    cases other with
    | members s t =>
      by_cases same : serial = s <;> simp [Holds, Result.key, lookup_cons, same, eq_comm]
    | _ => simp [Holds, Result.key]
  begun _ _ := rfl
  next _ _ := rfl
  diagnostics _ _ := rfl

theorem slot_bases (serial : Nat) : Slot (.bases serial) (.bases serial) (·.bases.lookup serial)
    (fun result c => { c with bases := (serial, result) :: c.bases }) where
  held _ _ := Iff.rfl
  key_eq other := by cases other <;> simp [Result.key, eq_comm]
  holds_keep a c other := by
    cases other with
    | bases s l =>
      by_cases same : serial = s <;> simp [Holds, Result.key, lookup_cons, same, eq_comm]
    | _ => simp [Holds, Result.key]
  begun _ _ := rfl
  next _ _ := rfl
  diagnostics _ _ := rfl

section Slot

variable {key : Key} {result : α → Result} {known : Catalog → Option α}
  {keep : α → Catalog → Catalog}

theorem Slot.knows_iff (slot : Slot key result known keep) (c : Catalog) :
    c.Knows key ↔ (known c).isSome := by
  rw [Option.isSome_iff_exists]
  constructor
  · rintro ⟨other, same, held⟩
    obtain ⟨a, rfl⟩ := (slot.key_eq other).mp same
    exact ⟨a, (slot.held c a).mpr held⟩
  · rintro ⟨a, found⟩
    exact ⟨result a, (slot.key_eq _).mpr ⟨a, rfl⟩, (slot.held c a).mp found⟩

theorem Slot.knows_keep (slot : Slot key result known keep) (a : α) (c : Catalog) (other : Key) :
    (keep a c).Knows other ↔ other = key ∨ c.Knows other := by
  have own : (result a).key = key := (slot.key_eq _).mpr ⟨a, rfl⟩
  constructor
  · rintro ⟨r, rfl, held⟩
    rcases (slot.holds_keep a c r).mp held with rfl | ⟨-, before⟩
    · exact .inl own
    · exact .inr ⟨r, rfl, before⟩
  · by_cases same : other = key
    · exact fun _ => ⟨result a, own.trans same.symm, (slot.holds_keep a c _).mpr (.inl rfl)⟩
    · rintro (rfl | ⟨r, rfl, held⟩)
      · exact absurd rfl same
      · exact ⟨r, rfl, (slot.holds_keep a c r).mpr (.inr ⟨same, held⟩)⟩

/-- Keeping the result of a key changes no result, if there was none for the key, or if only
smaller serial numbers count. -/
theorem Slot.grown (slot : Slot key result known keep) (a : α) {low : Nat}
    (free : ¬c.Knows key ∨ ∃ serial, key = .bases serial ∧ low ≤ serial) :
    Grown low c (keep a c) := by
  refine fun r below held => (slot.holds_keep a c r).mpr (.inr ⟨fun same => ?_, held⟩)
  rcases free with absent | ⟨serial, rfl, le⟩
  · exact absent ⟨r, same, held⟩
  · cases r <;> cases same
    exact absurd below (not_lt.mpr le)

end Slot

/-- A result that is not known is loaded and kept. -/
theorem run_once_of_unknown (key : Key) (known : Catalog → Option α)
    (keep : α → Catalog → Catalog) (load : CatalogM α) {c : Catalog} (unknown : known c = none) :
    (once key known keep load).run c =
      let loaded := load.run { c with begun := key :: c.begun }
      (loaded.1, keep loaded.1 loaded.2) := by
  simp only [once, run_bind]
  have here : ((get : CatalogM Catalog).run c).1 = c := rfl
  rw [here, unknown]
  rfl

variable {key : Key} {result : α → Result} {known : Catalog → Option α}
  {keep : α → Catalog → Catalog} {load : CatalogM α}

/-- When the loader of a key is done, all that it left belongs to the key. -/
theorem Loaded.close (slot : Slot key result known keep) (lower : key.rank < bound)
    (unknown : known c = none) (reports : tree.Reports key loose)
    (loaded : Loaded tree key.rank loose new { c with begun := key :: c.begun } c₁) (a : α) :
    Loaded tree bound [] (new ++ [(key, loose)]) c (keep a c₁) := by
  have still (k : Key) : { c with begun := key :: c.begun }.Knows k ↔ c.Knows k :=
    knows_remark c _ c.next c.diagnostics c.log k
  have absent : ¬c.Knows key := by simp [slot.knows_iff, unknown]
  have kept (k : Key) (known : c₁.Knows k) : (keep a c₁).Knows k :=
    (slot.knows_keep a c₁ k).mpr (.inr known)
  have free : ¬c₁.Knows key ∨ ∃ serial, key = .bases serial ∧ c.next ≤ serial := by
    by_cases late : c₁.Knows key
    · rcases loaded.frame key late with old | below | fresh
      · exact absurd ((still key).mp old) absent
      · exact absurd (loaded.known_of_mem below).1 (lt_irrefl _)
      · exact .inr fresh
    · exact .inl late
  have before : Grown c.next c c₁ := fun r below held =>
    loaded.grown r below ((holds_remark c _ c.next c.diagnostics c.log r).mpr held)
  exact {
    grown := before.trans le_rfl (slot.grown a free)
    next := by
      rw [slot.next]
      exact loaded.next
    knows := fun k known => kept k (loaded.knows k ((still k).mpr known))
    frame := by
      intro k known
      rw [List.map_append, List.mem_append]
      rcases (slot.knows_keep a c₁ k).mp known with rfl | before
      · exact .inr (.inl (.inr List.mem_cons_self))
      · rcases loaded.frame k before with old | below | fresh
        · exact .inl ((still k).mp old)
        · exact .inr (.inl (.inl below))
        · exact .inr (.inr fresh)
    begun := by
      rw [slot.begun, loaded.begun, List.map_append, List.append_assoc]
      rfl
    nodup := by
      rw [List.map_append, List.nodup_append']
      refine ⟨loaded.nodup, by simp, fun k early late => ?_⟩
      have same : k = key := by simpa using late
      exact lt_irrefl _ (same ▸ (loaded.known_of_mem early).1)
    facts := by
      intro e inside
      rcases List.mem_append.mp inside with early | last
      · obtain ⟨below, unknown, known, reports⟩ := loaded.facts e early
        exact ⟨below.trans lower, fun k => unknown ((still _).mpr k), kept _ known, reports⟩
      · rw [List.mem_singleton] at last
        subst last
        exact ⟨lower, absent, (slot.knows_keep a c₁ key).mpr (.inl rfl), reports⟩
    diagnostics := by
      rw [slot.diagnostics]
      refine loaded.diagnostics.trans (.append_left _ ?_)
      simpa using List.perm_append_comm }

/-- A lookup begins its key, and in its loader only keys below that. -/
theorem orderly_once (slot : Slot key result known keep) (lower : key.rank < bound)
    (inner : ∀ c, Clear key.rank c → ∃ loose new,
      tree.Reports key loose ∧ Loaded tree key.rank loose new c (load.run c).2) :
    Orderly tree bound left (once key known keep load) := by
  intro c clear
  rcases found : known c with _ | a
  · rw [run_once_of_unknown key known keep load found]
    have begins : Clear key.rank { c with begun := key :: c.begun } := by
      intro k member below
      rcases List.mem_cons.mp member with rfl | old
      · exact absurd below (lt_irrefl _)
      · exact (knows_remark c _ c.next c.diagnostics c.log k).mpr (clear k old (below.trans lower))
    obtain ⟨loose, new, reports, loaded⟩ := inner _ begins
    exact ⟨[], _, by simp, loaded.close slot lower found reports _⟩
  · rw [once_of_known key known keep load c a found]
    exact ⟨[], [], by simp, .refl tree bound c⟩

end Catalog

end MatlabOutline
