import MatlabOutline.Proofs.Catalog.Levels

/-!
The ways through plain folders, in the order in which a search takes them: short ways first, and those of one
length in the order of the members at which they part. Main statement: what a search comes to is the first thing
that a module on these ways holds (`entityInLevels_ways`, `pairwise_waysBelow`).
-/

namespace MatlabOutline

namespace SourceTree

/-- The ways over `n` plain folders below a module, and where they lead. -/
def ways (tree : SourceTree) (m : ModuleDoc) : Nat → List (List String × ModuleDoc)
  | 0 => [([], m)]
  | n + 1 => (tree.ways m n).flatMap fun w =>
    (plainMembers (tree.memberEntities w.2)).map fun e => (w.1 ++ [e.1], e.2)

/-- The ways over `n` plain folders and more, up to `depth` lengths. -/
def waysBelow (tree : SourceTree) (m : ModuleDoc) (n depth : Nat) : List (List String × ModuleDoc) :=
  (List.range' n depth).flatMap (tree.ways m)

/-- Where the two ways part, the first one takes an earlier member. -/
def Parts (tree : SourceTree) (m : ModuleDoc) (ps qs : List String) : Prop :=
  ∃ shared o p q r s, ps = shared ++ p :: r ∧ qs = shared ++ q :: s ∧ tree.moduleBelow m shared = some o ∧
    [p, q].Sublist (tree.memberEntities o).keys

/-- The first way is shorter, or it is as long and takes an earlier member where the two part. -/
def Precedes (tree : SourceTree) (m : ModuleDoc) (ps qs : List String) : Prop :=
  ps.length < qs.length ∨ ps.length = qs.length ∧ tree.Parts m ps qs

variable {tree : SourceTree} {m : ModuleDoc}

theorem keys_plainMembers (t : Table Entity) : ((plainMembers t).map Prod.fst).Sublist t.keys := by
  have sublist (l : List (String × Entity)) :
      ((plainMembers ⟨l⟩).map Prod.fst).Sublist (l.map Prod.fst) := by
    induction l with
    | nil => exact .slnil
    | cons entry l ih =>
      rw [plainMembers, List.filterMap_cons]
      obtain ⟨key, e⟩ := entry
      cases e with
      | module inner =>
        dsimp only
        split
        · exact ih.cons key
        · next plain =>
          split at plain
          · cases plain
          · cases plain
            exact ih.cons_cons key
      | _ => exact ih.cons key
  exact sublist t.entries

theorem mem_ways {n : Nat} {ps : List String} {o : ModuleDoc} :
    (ps, o) ∈ tree.ways m n ↔ ps.length = n ∧ (∀ p ∈ ps, IsPlain p) ∧ tree.moduleBelow m ps = some o := by
  induction n generalizing ps o with
  | zero =>
    rw [ways, List.mem_singleton, Prod.mk.injEq, List.length_eq_zero_iff]
    constructor
    · rintro ⟨rfl, rfl⟩
      exact ⟨rfl, by simp, rfl⟩
    · rintro ⟨rfl, -, below⟩
      exact ⟨rfl, (Option.some.inj below).symm⟩
  | succ n ih =>
    rw [ways, List.mem_flatMap]
    constructor
    · rintro ⟨⟨qs, outer⟩, before, last⟩
      obtain ⟨⟨key, inner⟩, member, same⟩ := List.mem_map.mp last
      obtain ⟨rfl, rfl⟩ := Prod.mk.inj same
      obtain ⟨length, plain, below⟩ := ih.mp before
      obtain ⟨plain', found⟩ := mem_plainMembers.mp member
      refine ⟨by simp [length], by simpa [or_imp, forall_and] using ⟨plain, plain'⟩, ?_⟩
      simp [moduleBelow_append, below, moduleBelow, found]
    · rintro ⟨length, plain, below⟩
      obtain ⟨qs, key, rfl⟩ := (List.eq_nil_or_concat' ps).resolve_left (by rintro rfl; cases length)
      rw [List.forall_mem_append, List.forall_mem_singleton] at plain
      rw [moduleBelow_append] at below
      obtain ⟨outer, below, last⟩ := Option.bind_eq_some_iff.mp below
      obtain ⟨inner, found, same⟩ := moduleBelow_cons last
      cases same
      have before := ih.mpr ⟨by simpa using length, plain.1, below⟩
      exact ⟨(qs, outer), before, List.mem_map.mpr ⟨(key, o), mem_plainMembers.mpr ⟨plain.2, found⟩, rfl⟩⟩

theorem Parts.append {ps qs : List String} (parts : tree.Parts m ps qs) (as bs : List String) :
    tree.Parts m (ps ++ as) (qs ++ bs) := by
  obtain ⟨shared, o, p, q, r, s, rfl, rfl, below, order⟩ := parts
  exact ⟨shared, o, p, q, r ++ as, s ++ bs, by simp, by simp, below, order⟩

theorem pairwise_ways (n : Nat) : (tree.ways m n).Pairwise fun v w => tree.Parts m v.1 w.1 := by
  induction n with
  | zero => exact List.pairwise_singleton _ _
  | succ n ih =>
    rw [ways, List.pairwise_flatMap]
    refine ⟨fun v member => ?_, ih.imp fun parts x inX y inY => ?_⟩
    · rw [List.pairwise_map, List.pairwise_iff_forall_sublist]
      intro a b both
      have order := (both.map Prod.fst).trans (keys_plainMembers _)
      exact ⟨v.1, v.2, a.1, b.1, [], [], rfl, rfl, (mem_ways.mp member).2.2, order⟩
    · obtain ⟨a, -, rfl⟩ := List.mem_map.mp inX
      obtain ⟨b, -, rfl⟩ := List.mem_map.mp inY
      exact parts.append [a.1] [b.1]

theorem pairwise_waysBelow (n depth : Nat) :
    (tree.waysBelow m n depth).Pairwise fun v w => tree.Precedes m v.1 w.1 := by
  rw [waysBelow, List.pairwise_flatMap]
  refine ⟨fun k _ => (pairwise_ways k).imp_of_mem fun first second parts => .inr ⟨?_, parts⟩, ?_⟩
  · rw [(mem_ways.mp first).1, (mem_ways.mp second).1]
  · refine (List.pairwise_lt_range' 1).imp fun lower v first w second => .inl ?_
    rwa [(mem_ways.mp first).1, (mem_ways.mp second).1]

theorem waysBelow_succ (n depth : Nat) :
    tree.waysBelow m n (depth + 1) = tree.ways m n ++ tree.waysBelow m (n + 1) depth := by
  rw [waysBelow, List.range'_succ, List.flatMap_cons, waysBelow]

section Search

variable {packages : List String} {last : String}

/-- The modules at the end of the ways that are one folder longer. -/
theorem names_ways_succ (proper : tree.disk.root.Proper) (there : tree.moduleDoc? m.name = some m) (n : Nat) :
    (tree.ways m (n + 1)).map (·.2.name) = ((tree.ways m n).map (·.2.name)).flatMap tree.innerFolders := by
  rw [ways, List.map_flatMap, List.flatMap_map]
  refine List.flatMap_congr fun w member => ?_
  obtain ⟨-, -, below⟩ := mem_ways.mp member
  rw [innerFolders, (name_of_moduleBelow proper there below).2, Option.elim_some, ← map_name_plainMembers,
    List.map_map]
  rfl

/-- A search comes to what the first module holds that is on these ways and has the name. -/
theorem entityInLevels_ways (proper : tree.disk.root.Proper) (there : tree.moduleDoc? m.name = some m)
    (n depth : Nat) :
    tree.entityInLevels packages last depth ((tree.ways m n).map (·.2.name)) =
      (tree.waysBelow m n depth).findSome? fun w => tree.heldIn packages last w.2.name := by
  induction depth generalizing n with
  | zero => cases (tree.ways m n).map (·.2.name) <;> rfl
  | succ depth ih =>
    rw [entityInLevels_succ, ← names_ways_succ proper there, ih, waysBelow_succ, List.findSome?_append,
      List.findSome?_map, Function.comp_def]
    cases (tree.ways m n).findSome? fun w => tree.heldIn packages last w.2.name <;> rfl

end Search

end SourceTree

end MatlabOutline
