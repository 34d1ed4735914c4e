import MatlabOutline.Catalog.Equality
import MatlabOutline.Proofs.Catalog.Sessions
import Mathlib.Data.List.ProdSigma
import Mathlib.Data.List.Perm.Subperm

/-!
Comparing items for equality goes on to the superclasses that were found for them, so it has no end
where a class is found to be its own superclass. Comparison is told step by step here
(`Catalog.Answers`), and comes to an answer just if it never comes back to a pair of items that it is
comparing (`comparison_ends_iff`).
-/

namespace MatlabOutline

open Relation Catalog

namespace Catalog

variable {c : Catalog} {a b : Item} {p q : Item × Item} {ps xs ys : List (Item × Item)} {r : Bool}

/-- What is left to compare of two items that agree by themselves, which are the superclasses found for
them, one by one. Nothing, not even the empty list, if they differ. -/
def parts (c : Catalog) (a b : Item) : Option (List (Item × Item)) :=
  match a.class?, b.class? with
  | some x, some y =>
    if x.agrees y then
      match c.bases.lookup a.serial, c.bases.lookup b.serial with
      | none, none => some []
      | some above, some below => if above.length = below.length then some (above.zip below) else none
      | _, _ => none
    else none
  | _, _ => if a.entity = b.entity then some [] else none

/-- The comparison of the pairs comes to an answer. Each pair is compared down to its superclasses before
the next, up to the first that differs. -/
inductive Answers (c : Catalog) : List (Item × Item) → Bool → Prop
  | done : Answers c [] true
  | differ {a b : Item} {rest : List (Item × Item)} : c.parts a b = none →
      Answers c ((a, b) :: rest) false
  | agree {a b : Item} {rest pairs : List (Item × Item)} {r : Bool} : c.parts a b = some pairs →
      Answers c (pairs ++ rest) r → Answers c ((a, b) :: rest) r

/-- The comparison of `p` comes to that of `q`, a pair of superclasses. -/
def Leads (c : Catalog) (p q : Item × Item) : Prop :=
  ∃ before after, c.parts p.1 p.2 = some (before ++ q :: after) ∧ c.Answers before true

/-- The item `base` was found to be a superclass of `item`. -/
def HasBase (c : Catalog) (item base : Item) : Prop :=
  ∃ l, c.bases.lookup item.serial = some l ∧ base ∈ l

theorem Answers.unique {r' : Bool} (first : c.Answers ps r) (second : c.Answers ps r') : r = r' := by
  induction first with
  | done =>
    cases second
    rfl
  | differ parts =>
    cases second with
    | differ => rfl
    | agree parts' => simp [parts] at parts'
  | agree parts _ ih =>
    cases second with
    | differ parts' => simp [parts] at parts'
    | agree parts' further =>
      obtain rfl := Option.some.inj (parts.symm.trans parts')
      exact ih further

theorem Answers.append (first : c.Answers xs true) (second : c.Answers ys r) : c.Answers (xs ++ ys) r := by
  generalize answer : true = t at first
  induction first with
  | done => exact second
  | differ => cases answer
  | agree parts _ ih =>
    exact .agree parts (List.append_assoc .. ▸ ih answer)

/-- A difference ends the comparison. -/
theorem Answers.append_left (first : c.Answers xs false) (ys : List (Item × Item)) :
    c.Answers (xs ++ ys) false := by
  generalize answer : false = t at first
  induction first with
  | done => cases answer
  | differ parts => exact .differ parts
  | agree parts _ ih =>
    exact .agree parts (List.append_assoc .. ▸ ih answer)

/-- Where a comparison comes to an answer, so does each that it leads to, and not by way of itself. -/
theorem Answers.acc (ends : c.Answers ps r) {before after : List (Item × Item)}
    (split : ps = before ++ q :: after) (same : c.Answers before true) :
    Acc (fun x y => c.Leads y x) q := by
  induction ends generalizing before q after with
  | done => simp at split
  | @differ a b rest parts =>
    rcases before with _ | ⟨p, before⟩
    · obtain ⟨rfl, rfl⟩ := List.cons.inj split
      refine ⟨_, fun x leads => ?_⟩
      obtain ⟨front, behind, parts', -⟩ := leads
      simp [parts] at parts'
    · obtain ⟨rfl, -⟩ := List.cons.inj split
      cases same with
      | agree parts' => simp [parts] at parts'
  | @agree a b rest pairs r parts _ ih =>
    rcases before with _ | ⟨p, before⟩
    · obtain ⟨rfl, rfl⟩ := List.cons.inj split
      refine ⟨_, fun x leads => ?_⟩
      obtain ⟨front, behind, parts', same⟩ := leads
      obtain rfl := Option.some.inj (parts.symm.trans parts')
      exact ih (List.append_assoc _ _ _) same
    · obtain ⟨rfl, rfl⟩ := List.cons.inj split
      cases same with
      | agree parts' further =>
        obtain rfl := Option.some.inj (parts.symm.trans parts')
        exact ih (List.append_assoc _ _ _).symm further

theorem not_cycle_of_acc (acc : Acc (fun x y => c.Leads y x) p) (reached : ReflTransGen c.Leads p q) :
    ¬ TransGen c.Leads q q := by
  induction acc generalizing q with
  | intro p _ ih =>
    rcases ReflTransGen.cases_head reached with rfl | ⟨x, leads, further⟩
    · intro cycle
      obtain ⟨x, leads, back⟩ := TransGen.head'_iff.mp cycle
      exact ih x leads .refl (TransGen.tail' back leads)
    · exact ih x leads further

theorem agreeWithin_eq (c : Catalog) (fuel : Nat) (a b : Item) :
    c.parts a b = none ∧ c.agreeWithin fuel a b = some false ∨
      c.parts a b = some [] ∧ c.agreeWithin fuel a b = some true ∨
      ∃ above below, c.bases.lookup a.serial = some above ∧ c.bases.lookup b.serial = some below ∧
        above.length = below.length ∧ c.parts a b = some (above.zip below) ∧
        c.agreeWithin fuel a b =
          match fuel with
          | 0 => none
          | n + 1 => c.allAgreeWithin n above below := by
  rw [agreeWithin]
  fun_cases parts c a b with
  | case1 x y ofA ofB agrees noneA noneB =>
    simp only [ofA, ofB, agrees, noneA, noneB]
    simp
  | case2 x y ofA ofB agrees above below ofAbove ofBelow same =>
    simp only [ofA, ofB, agrees, ofAbove, ofBelow, same]
    exact .inr (.inr ⟨above, below, rfl, rfl, same, rfl, rfl⟩)
  | _ => simp_all

theorem answers_zip_of_allAgreeWithin {fuel : Nat}
    (each : ∀ a b r, c.agreeWithin fuel a b = some r → c.Answers [(a, b)] r) {above below : List Item}
    (agreed : c.allAgreeWithin fuel above below = some r) : c.Answers (above.zip below) r := by
  induction above generalizing below with
  | nil =>
    rw [allAgreeWithin] at agreed
    · exact Option.some.inj agreed ▸ .done
    · simp
  | cons a above ih =>
    rcases below with _ | ⟨b, below⟩
    · rw [allAgreeWithin] at agreed
      · exact Option.some.inj agreed ▸ .done
      · simp
    · rw [allAgreeWithin] at agreed
      split at agreed
      · next same => exact (each a b true same).append (ih agreed)
      · next other =>
        rcases r with _ | _
        · exact (each a b false agreed).append_left _
        · exact absurd agreed other

theorem answers_of_agreeWithin {fuel : Nat} (agreed : c.agreeWithin fuel a b = some r) :
    c.Answers [(a, b)] r := by
  induction fuel generalizing a b r with
  | zero =>
    rcases c.agreeWithin_eq 0 a b with ⟨parts, given⟩ | ⟨parts, given⟩ | ⟨above, below, -, -, -, -, given⟩
    · exact Option.some.inj (agreed.symm.trans given) ▸ .differ parts
    · exact Option.some.inj (agreed.symm.trans given) ▸ .agree parts .done
    · simp [given] at agreed
  | succ fuel ih =>
    rcases c.agreeWithin_eq (fuel + 1) a b with
      ⟨parts, given⟩ | ⟨parts, given⟩ | ⟨above, below, -, -, -, parts, given⟩
    · exact Option.some.inj (agreed.symm.trans given) ▸ .differ parts
    · exact Option.some.inj (agreed.symm.trans given) ▸ .agree parts .done
    · rw [given] at agreed
      refine .agree parts ?_
      rw [List.append_nil]
      exact answers_zip_of_allAgreeWithin (fun _ _ _ => ih) agreed

/-- Where fuel runs out on a list, it does on the first pair that is not found to be equal. -/
theorem exists_split_of_allAgreeWithin {fuel : Nat} {above below : List Item}
    (stuck : c.allAgreeWithin fuel above below = none) :
    ∃ before q after, above.zip below = before ++ q :: after ∧ c.Answers before true ∧
      c.agreeWithin fuel q.1 q.2 = none := by
  induction above generalizing below with
  | nil =>
    rw [allAgreeWithin] at stuck
    · simp at stuck
    · simp
  | cons a above ih =>
    rcases below with _ | ⟨b, below⟩
    · rw [allAgreeWithin] at stuck
      · simp at stuck
      · simp
    · rw [allAgreeWithin] at stuck
      split at stuck
      · next same =>
        obtain ⟨before, q, after, split, agreed, further⟩ := ih stuck
        exact ⟨(a, b) :: before, q, after, by simp [split],
          (answers_of_agreeWithin same).append agreed, further⟩
      · exact ⟨[], (a, b), above.zip below, rfl, .done, stuck⟩

/-- The superclasses of both items have been found. -/
def Searched (c : Catalog) (p : Item × Item) : Prop :=
  (∃ l, c.bases.lookup p.1.serial = some l) ∧ ∃ l, c.bases.lookup p.2.serial = some l

/-- Where fuel runs out, it was used up on a chain of pairs, each of which leads to the next. -/
theorem exists_chain_of_agreeWithin {fuel : Nat} (stuck : c.agreeWithin fuel p.1 p.2 = none) :
    ∃ ps, (p :: ps).IsChain c.Leads ∧ ps.length = fuel ∧ ∀ q ∈ p :: ps, c.Searched q := by
  induction fuel generalizing p with
  | zero =>
    rcases c.agreeWithin_eq 0 p.1 p.2 with
      ⟨-, given⟩ | ⟨-, given⟩ | ⟨above, below, ofAbove, ofBelow, -, -, -⟩
    · simp [given] at stuck
    · simp [given] at stuck
    · refine ⟨[], .singleton p, rfl, fun q member => ?_⟩
      obtain rfl := List.mem_singleton.mp member
      exact ⟨⟨above, ofAbove⟩, below, ofBelow⟩
  | succ fuel ih =>
    rcases c.agreeWithin_eq (fuel + 1) p.1 p.2 with
      ⟨-, given⟩ | ⟨-, given⟩ | ⟨above, below, ofAbove, ofBelow, -, parts, given⟩
    · simp [given] at stuck
    · simp [given] at stuck
    · rw [given] at stuck
      obtain ⟨before, q, after, split, agreed, further⟩ := exists_split_of_allAgreeWithin stuck
      obtain ⟨ps, chain, length, searched⟩ := ih further
      refine ⟨q :: ps, .cons_cons ⟨before, after, split ▸ parts, agreed⟩ chain, by simp [length], ?_⟩
      rintro x (_ | ⟨_, member⟩)
      · exact ⟨⟨above, ofAbove⟩, below, ofBelow⟩
      · exact searched x member

theorem hasBase_of_leads (leads : c.Leads p q) : c.HasBase p.1 q.1 ∧ c.HasBase p.2 q.2 := by
  obtain ⟨before, after, split, -⟩ := leads
  rcases c.agreeWithin_eq 0 p.1 p.2 with
    ⟨parts, -⟩ | ⟨parts, -⟩ | ⟨above, below, ofAbove, ofBelow, -, parts, -⟩
  · simp [parts] at split
  · simp [parts] at split
  · have member : q ∈ above.zip below := by
      rw [Option.some.inj (parts.symm.trans split)]
      exact List.mem_append_right _ List.mem_cons_self
    obtain ⟨left, right⟩ := List.of_mem_zip member
    exact ⟨⟨above, ofAbove, left⟩, below, ofBelow, right⟩

/-- A comparison that goes round in circles goes round in circles on either side. -/
theorem hasBase_of_cycle (cycle : TransGen c.Leads p p) :
    TransGen c.HasBase p.1 p.1 ∧ TransGen c.HasBase p.2 p.2 :=
  ⟨TransGen.lift Prod.fst (fun _ _ leads => (hasBase_of_leads leads).1) p p cycle,
    TransGen.lift Prod.snd (fun _ _ leads => (hasBase_of_leads leads).2) p p cycle⟩

section Recorded

variable {tree : SourceTree} {ids : List Entity}

theorem recorded_of_hasBase (kept : tree.grounded.Kept ids c) (above : c.HasBase a b) :
    b.RecordedIn ids := by
  obtain ⟨l, found, member⟩ := above
  exact kept.results (.bases a.serial l) found b member

/-- Serial numbers tell recorded items apart. -/
theorem eq_of_serial (left : a.RecordedIn ids) (right : b.RecordedIn ids) (same : a.serial = b.serial) :
    a = b := by
  have entity : some a.entity = some b.entity := by rw [← left, ← right, same]
  cases a
  cases b
  simp_all

theorem mem_serials {serial : Nat} (found : ∃ l, c.bases.lookup serial = some l) :
    serial ∈ c.bases.map Prod.fst := by
  obtain ⟨l, held⟩ := found
  obtain ⟨before, after, split, -⟩ := List.lookup_eq_some_iff.mp held
  simp [split]

/-- There are no more pairs of classes with superclasses than fuel, so a comparison that uses it up
comes to a pair twice. -/
theorem exists_cycle_of_agree (kept : tree.grounded.Kept ids c) (left : p.1.RecordedIn ids)
    (right : p.2.RecordedIn ids) (stuck : c.agree p.1 p.2 = none) :
    ∃ q, ReflTransGen c.Leads p q ∧ TransGen c.Leads q q := by
  by_contra none
  push Not at none
  obtain ⟨ps, chain, length, searched⟩ := exists_chain_of_agreeWithin stuck
  have onward : (p :: ps).Pairwise (TransGen c.Leads) :=
    List.isChain_iff_pairwise.mp (chain.imp fun _ _ => .single)
  have reached : ∀ q ∈ p :: ps, ReflTransGen c.Leads p q := by
    rintro q (_ | ⟨_, member⟩)
    · exact .refl
    · exact ((List.pairwise_cons.mp onward).1 q member).to_reflTransGen
  have recorded : ∀ q ∈ p :: ps, q.1.RecordedIn ids ∧ q.2.RecordedIn ids := by
    intro q member
    rcases (reached q member).cases_tail with rfl | ⟨x, -, leads⟩
    · exact ⟨left, right⟩
    · exact (hasBase_of_leads leads).imp (recorded_of_hasBase kept) (recorded_of_hasBase kept)
  have nodup : ((p :: ps).map fun q => (q.1.serial, q.2.serial)).Nodup := by
    refine List.pairwise_map.mpr (onward.imp_of_mem fun {x y} memberX memberY leads same => ?_)
    have first := eq_of_serial (recorded x memberX).1 (recorded y memberY).1 (congrArg Prod.fst same)
    have second := eq_of_serial (recorded x memberX).2 (recorded y memberY).2 (congrArg Prod.snd same)
    obtain rfl : x = y := Prod.ext first second
    exact none x (reached x memberX) leads
  have serials : ((p :: ps).map fun q => (q.1.serial, q.2.serial)) ⊆
      c.bases.map Prod.fst ×ˢ c.bases.map Prod.fst := by
    intro s member
    obtain ⟨q, inside, rfl⟩ := List.mem_map.mp member
    exact List.mem_product.mpr ⟨mem_serials (searched q inside).1, mem_serials (searched q inside).2⟩
  have few := (nodup.subperm serials).length_le
  rw [List.length_product, List.length_map, List.length_map, List.length_cons, length] at few
  omega

end Recorded

end Catalog

/-- In a catalog after any calls, the comparison of two items at hand comes to an answer, which is then
the one that is computed, just if it does not come back to a pair that it is comparing. It only can
where both items have classes above them that were found to be their own superclasses. -/
theorem comparison_ends_iff {tree : SourceTree} (proper : tree.disk.root.Proper)
    {allowed : Call → Prop} {given : List Item} {c : Catalog}
    (session : Session tree allowed [] {} given c) {a b : Item} (first : a ∈ given)
    (second : b ∈ given) :
    ((∃ r, c.Answers [(a, b)] r) ↔
        ¬∃ p, ReflTransGen c.Leads (a, b) p ∧ TransGen c.Leads p p) ∧
      (∀ r, c.agree a b = some r ↔ c.Answers [(a, b)] r) ∧
      ∀ p, TransGen c.Leads p p → TransGen c.HasBase p.1 p.1 ∧ TransGen c.HasBase p.2 p.2 := by
  obtain ⟨ids, kept, recorded⟩ := session.exists_kept proper
  have acyclic {r : Bool} (ends : c.Answers [(a, b)] r) :
      ¬∃ p, ReflTransGen c.Leads (a, b) p ∧ TransGen c.Leads p p := by
    rintro ⟨p, reached, cycle⟩
    have acc := ends.acc (show [(a, b)] = [] ++ (a, b) :: [] from rfl) .done
    exact not_cycle_of_acc acc reached cycle
  have computed (free : ¬∃ p, ReflTransGen c.Leads (a, b) p ∧ TransGen c.Leads p p) :
      ∃ r, c.agree a b = some r :=
    Option.ne_none_iff_exists'.mp fun stuck =>
      free (exists_cycle_of_agree kept (show (a, b).1.RecordedIn ids from recorded a first) (recorded b second) stuck)
  refine ⟨⟨fun ⟨r, ends⟩ => acyclic ends, fun free => ?_⟩, fun r => ⟨answers_of_agreeWithin, fun ends => ?_⟩,
    fun p => hasBase_of_cycle⟩
  · obtain ⟨r, given⟩ := computed free
    exact ⟨r, answers_of_agreeWithin given⟩
  · obtain ⟨r', given⟩ := computed (acyclic ends)
    rw [given, (answers_of_agreeWithin given).unique ends]

/-- A class whose superclass was found. -/
theorem comparison_ends_superclass :
    let source := "classdef B\nend\n".toList.map fun c => UInt8.ofNat c.toNat
    let tree : SourceTree := ⟨{ root := .folder [("B.m", .file source)] }, { root := "/" }⟩
    let item : Item := ⟨0, .cls { name := "A", scope := "", superclasses := ["B"] }⟩
    let base : Item := ⟨2, .cls { name := "B", scope := "", location := ⟨"/B.m", some (1, 1)⟩ }⟩
    let c := (((Call.create item.entity).run tree).run {}).2
    let c₁ := (((Call.bases item).run tree).run c).2
    tree.disk.root.Proper ∧
      Session tree (fun _ => True) [] {} ([item] ++ (((Call.bases item).run tree).run c).1.items) c₁ ∧
      c₁.parts item item = some [(base, base)] ∧ c₁.agree item item = some true ∧
      ¬∃ p, ReflTransGen c₁.Leads (item, item) p ∧ TransGen c₁.Leads p p := by
  intro source tree item base c c₁
  have proper : tree.disk.root.Proper := .folder _ (by decide) (by simpa using .file _)
  have first : Session tree (fun _ => True) [] {} [item] c :=
    Session.start.call (.create item.entity) trivial (by simp [Call.uses])
  have session := first.call (.bases item) trivial (by simp [Call.uses])
  have parts : c₁.parts item item = some [(base, base)] := by decide +kernel
  have above : c₁.parts base base = some [] := by decide +kernel
  have ends : c₁.Answers [(item, item)] true := .agree parts (.agree above .done)
  have known : item ∈ [item] ++ (((Call.bases item).run tree).run c).1.items := List.mem_cons_self
  have told := comparison_ends_iff proper session known known
  exact ⟨proper, session, parts, (told.2.1 true).mpr ends, told.1.mp ⟨true, ends⟩⟩

/-- A class that names itself as its superclass. Once it was asked for its superclasses, its comparison
with itself has no end. -/
theorem comparison_of_own_superclass :
    let source := "classdef A < A\nend\n".toList.map fun c => UInt8.ofNat c.toNat
    let tree : SourceTree := ⟨{ root := .folder [("A.m", .file source)] }, { root := "/" }⟩
    let item : Item :=
      ⟨1, .cls { name := "A", scope := "", superclasses := ["A"], location := ⟨"/A.m", some (1, 1)⟩ }⟩
    let c := (((Call.resolve "A" none).run tree).run {}).2
    let c₁ := (((Call.bases item).run tree).run c).2
    tree.disk.root.Proper ∧
      Session tree (fun _ => True) [] {} ([item] ++ (((Call.bases item).run tree).run c).1.items) c₁ ∧
      ¬∃ r, c₁.Answers [(item, item)] r := by
  intro source tree item c c₁
  have proper : tree.disk.root.Proper := .folder _ (by decide) (by simpa using .file _)
  have found : (((Call.resolve "A" none).run tree).run {}).1 = .one (some item) := by decide +kernel
  have first := (Session.start : Session tree (fun _ => True) [] {} [] {}).call (.resolve "A" none)
    trivial (by simp [Call.uses])
  rw [found] at first
  have parts : c₁.parts item item = some [(item, item)] := by decide +kernel
  refine ⟨proper, first.call (.bases item) trivial (by simp [Call.uses, Answer.items]), ?_⟩
  rintro ⟨r, ends⟩
  have acc := ends.acc (show [(item, item)] = [] ++ (item, item) :: [] from rfl) .done
  exact not_cycle_of_acc acc .refl (.single ⟨[], [], parts, .done⟩)

end MatlabOutline
