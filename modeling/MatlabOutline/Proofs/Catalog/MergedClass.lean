import MatlabOutline.Proofs.Catalog.Members

/-!
Classes in folders of their own. Main statement: the methods that the files of a class folder define are merged
into the class without loss, whatever other files there are (`classFolder_merges`).
-/

namespace MatlabOutline

open Catalog Law

namespace ClassDoc

/-- What functions in files of their own, in the order of the files, make of a class. -/
structure MergedWith (declared : ClassDoc) (fs : List FunctionDoc) (d : ClassDoc) : Prop where
  /-- All but the methods is as the class declares it. -/
  rest : d = { declared with methods := d.methods }
  /-- Declared methods keep their places, and others come behind them when they are first defined. -/
  keys : d.methods.keys = declared.methods.keys ++
    ((fs.map fun f => MethodDoc.normalName f.name).filter (· ∉ declared.methods.keys)).eraseDups
  untouched : ∀ key, (∀ f ∈ fs, MethodDoc.normalName f.name ≠ key) →
    d.methods.get? key = declared.methods.get? key
  /-- A method that one file defines is as in the file, but for what only the declaration can say. -/
  single : ∀ before f after, fs = before ++ f :: after → '.' ∉ f.name.toList →
    (∀ g ∈ before ++ after, MethodDoc.normalName g.name ≠ f.name) →
      d.methods.get? f.name = some
        { function := { f with doc := f.doc <|> (declared.methods.get? f.name).bind (·.function.doc) }
          attrs := (declared.methods.get? f.name).elim {} (·.attrs)
          className := declared.name }

/-- The method that a function defines in a class. -/
def definedBy (c : ClassDoc) (f : FunctionDoc) : MethodDoc :=
  .ofFunction { f with doc := f.doc <|> (c.methods.get? f.name).bind (·.function.doc) }
    ((c.methods.get? f.name).elim {} (·.attrs)) c.name

theorem mergeMethod_eq (c : ClassDoc) (f : FunctionDoc) :
    c.mergeMethod f = { c with methods := c.methods.insert (MethodDoc.normalName f.name) (c.definedBy f) } := by
  rw [mergeMethod, definedBy]
  cases c.methods.get? f.name <;> cases doc : f.doc <;> simp [MethodDoc.ofFunction, doc]

theorem mergeMethod_rest (c : ClassDoc) (f : FunctionDoc) :
    c.mergeMethod f = { c with methods := (c.mergeMethod f).methods } := by
  rw [mergeMethod_eq]

theorem get?_mergeMethod (c : ClassDoc) (f : FunctionDoc) (key : String) :
    (c.mergeMethod f).methods.get? key =
      if MethodDoc.normalName f.name = key then some (c.definedBy f) else c.methods.get? key := by
  rw [mergeMethod_eq, Table.get?_insert]

theorem keys_mergeMethod (c : ClassDoc) (f : FunctionDoc) :
    (c.mergeMethod f).methods.keys = if MethodDoc.normalName f.name ∈ c.methods.keys then c.methods.keys
      else c.methods.keys ++ [MethodDoc.normalName f.name] := by
  rw [mergeMethod_eq, Table.keys_insert]

theorem rest_foldl (declared : ClassDoc) (fs : List FunctionDoc) :
    fs.foldl mergeMethod declared = { declared with methods := (fs.foldl mergeMethod declared).methods } := by
  induction fs generalizing declared with
  | nil => rfl
  | cons f fs ih =>
    rw [List.foldl_cons, ih, mergeMethod_rest]

theorem untouched_foldl (declared : ClassDoc) {fs : List FunctionDoc} {key : String}
    (other : ∀ f ∈ fs, MethodDoc.normalName f.name ≠ key) :
    (fs.foldl mergeMethod declared).methods.get? key = declared.methods.get? key := by
  induction fs generalizing declared with
  | nil => rfl
  | cons f fs ih =>
    rw [List.forall_mem_cons] at other
    rw [List.foldl_cons, ih _ other.2, get?_mergeMethod, if_neg other.1]

theorem keys_foldl (declared : ClassDoc) (fs : List FunctionDoc) :
    (fs.foldl mergeMethod declared).methods.keys = declared.methods.keys ++
      ((fs.map fun f => MethodDoc.normalName f.name).filter (· ∉ declared.methods.keys)).eraseDups := by
  induction fs generalizing declared with
  | nil => simp
  | cons f fs ih =>
    rw [List.foldl_cons, ih, keys_mergeMethod, List.map_cons, List.filter_cons]
    by_cases known : MethodDoc.normalName f.name ∈ declared.methods.keys
    · simp [known]
    · simp only [known, if_false, not_false_eq_true, decide_true, if_true, List.eraseDups_cons, List.append_assoc,
        List.singleton_append, List.filter_filter]
      congr 4
      funext key
      simp [Bool.and_comm, beq_eq_decide]

theorem normalName_of_plain {name : String} (plain : '.' ∉ name.toList) : MethodDoc.normalName name = name := by
  have same : (name.toList.map fun c => if c = '.' then '_' else c) = name.toList := by
    refine (List.map_congr_left fun c member => if_neg ?_).trans (List.map_id _)
    rintro rfl
    exact plain member
  rw [MethodDoc.normalName, same, String.ofList_toList]

theorem mergedWith_foldl (declared : ClassDoc) (fs : List FunctionDoc) :
    declared.MergedWith fs (fs.foldl mergeMethod declared) where
  rest := rest_foldl declared fs
  keys := keys_foldl declared fs
  untouched _ := untouched_foldl declared
  single before f after cut plain alone := by
    rw [List.forall_mem_append] at alone
    have name := normalName_of_plain plain
    -- No file before this one has changed what the class declares.
    have known := untouched_foldl declared alone.1
    have class' : (before.foldl mergeMethod declared).name = declared.name := by rw [rest_foldl]
    rw [cut, List.foldl_append, List.foldl_cons, untouched_foldl _ alone.2, get?_mergeMethod, if_pos name,
      definedBy, known, class', MethodDoc.ofFunction]
    simp only [name]

end ClassDoc

namespace SourceTree

variable {tree : SourceTree}

/-- The functions that the files at `paths` define. Files of other kinds define none. -/
def functionsIn (tree : SourceTree) (scope : String) (paths : List String) : List FunctionDoc :=
  paths.filterMap fun path =>
    match tree.fileEntity path scope with
    | some (.function f) => some f
    | _ => none

theorem mergedClass_eq (scope : String) (c : ClassDoc) (paths : List String) :
    tree.mergedClass scope c paths = (tree.functionsIn scope paths).foldl ClassDoc.mergeMethod c := by
  induction paths generalizing c with
  | nil => rfl
  | cons path r ih =>
    rw [mergedClass, functionsIn, List.filterMap_cons]
    cases tree.fileEntity path scope with
    | none => exact ih c
    | some e =>
      cases e with
      | function f => exact ih (c.mergeMethod f)
      | _ => exact ih c

end SourceTree

theorem exists_class_of_any {e : Option Entity} {p : ClassDoc → Bool}
    (holds : (e.bind fun e => (Item.mk 0 e).class?).any p = true) : ∃ c, e = some (.cls c) ∧ p c = true := by
  cases e with
  | none => simp at holds
  | some e =>
    cases e with
    | cls c => exact ⟨c, rfl, holds⟩
    | _ => simp [Item.class?] at holds

/-- The class in a class folder. Its class file declares a class, and the files beside it may define functions,
scripts, other classes or nothing at all, and define them more than once. They are taken in the order of their
names, and merged without loss. -/
theorem classFolder_merges {tree : SourceTree} (proper : tree.disk.root.Proper) {given : List Item} {c : Catalog}
    (session : Session tree Call.IsFlat [] {} given c) {item : Item} (inside : item ∈ given) {m : ModuleDoc}
    (isModule : item.module? = some m) {name : String} {cls : List Char} (marked : name.toList = '@' :: cls)
    (folder : tree.disk.HasFolder m.path name) {declared : ClassDoc}
    (parsed : tree.fileEntity (PathText.join (PathText.join m.path name) (String.ofList cls ++ ".m")) m.name =
      some (.cls declared)) :
    let path := PathText.join m.path name
    let classFile := PathText.join path (String.ofList cls ++ ".m")
    ∃ x d names, ((tree.classFolder path (String.ofList cls) m.name).run c).1 = some x ∧ x.class? = some d ∧
      tree.disk.list path = .ok names ∧ names.Pairwise (· ≤ ·) ∧
      declared.MergedWith (tree.functionsIn m.name
        ((names.map (PathText.join path)).filter (tree.isMethodFile classFile))) d := by
  intro path classFile
  obtain ⟨⟨flat, there⟩, -⟩ := session.exists_members proper inside isModule
  obtain ⟨same, valid, -⟩ := SourceTree.moduleDoc?_eq_some there
  have home : m.path = tree.modulePath m.name := congrArg ModuleDoc.path same
  obtain ⟨-, -, _, listed⟩ := SourceTree.exists_list_of_moduleDoc? there
  have entry := SourceTree.isEntryName_of_hasFolder proper there folder
  have below : tree.disk.isFolder path = true := (Disk.hasFolder_iff listed entry).mp folder
  obtain ⟨names, sorted⟩ := Disk.exists_list below
  obtain ⟨ids, kept, -⟩ := session.exists_faithful proper
  obtain ⟨_, -, -, -, shown⟩ := SourceTree.faithful_classFolder proper flat valid entry marked ids c
    List.prefix_rfl kept
  rw [← home] at shown
  have means : tree.classFolderEntity path (String.ofList cls) m.name =
      some (.cls (tree.mergedClass m.name declared
        ((names.map (PathText.join path)).filter (tree.isMethodFile classFile)))) := by
    simp only [SourceTree.classFolderEntity]
    rw [parsed]
    simp only [sorted]
    rfl
  rw [means] at shown
  obtain ⟨x, found, entity⟩ := Option.map_eq_some_iff.mp shown
  refine ⟨x, _, names, found, ?_, sorted, Disk.pairwise_of_list sorted, ClassDoc.mergedWith_foldl declared _⟩
  rw [Item.class?, entity, ← SourceTree.mergedClass_eq]

/-- A class that declares two hidden methods, of which one is defined in a file of its own, beside a method
that only its file knows. -/
theorem classFolder_merges_function :
    let source (text : String) : Bytes := text.toList.map fun c => UInt8.ofNat c.toNat
    let tree : SourceTree :=
      ⟨{ root := .folder [("@C", .folder [
          ("C.m", .file (source "classdef C\nmethods (Hidden)\nf(o) % Said.\ng(o)\nend\nend\n")),
          ("f.m", .file (source "function r = f(o)\nend\n")),
          ("h.m", .file (source "function h(o)\nend\n"))])] }, { root := "/" }⟩
    let c := (((Call.module "").run tree).run {}).2
    ∃ declared x d, tree.fileEntity "/@C/C.m" "" = some (.cls declared) ∧
      ((tree.classFolder "/@C" "C" "").run c).1 = some x ∧ x.class? = some d ∧
      d.name = declared.name ∧ d.superclasses = declared.superclasses ∧
      d.methods.keys = ["f", "g", "h"] ∧
      d.methods.get? "f" = some
        { function :=
            { name := "f", scope := "", doc := some "Said.", args := [{ name := "o" }]
              returns := [{ name := "r" }] }
          attrs := ⟨[("Hidden", .bool true)]⟩
          className := "C" } ∧
      d.methods.contains "g" = true ∧ d.methods.get? "g" = declared.methods.get? "g" := by
  intro source tree c
  let item : Item := ⟨0, .module { name := "", path := "/", doc := none }⟩
  have inner : (FileTree.folder [
      ("C.m", .file (source "classdef C\nmethods (Hidden)\nf(o) % Said.\ng(o)\nend\nend\n")),
      ("f.m", .file (source "function r = f(o)\nend\n")),
      ("h.m", .file (source "function h(o)\nend\n"))]).Proper :=
    .folder _ (by decide) (by simpa using ⟨.file _, .file _, .file _⟩)
  have proper : tree.disk.root.Proper := .folder _ (by decide) (by simpa using inner)
  have loaded : (((Call.module "").run tree).run {}).1 = .one (some item) := by decide +kernel
  have session : Session tree Call.IsFlat [] {} [item] c := .ofRoot loaded
  have root : tree.disk.find "/" = .ok tree.disk.root := rfl
  obtain ⟨declared, parsed, declares⟩ := exists_class_of_any
    (show ((tree.fileEntity "/@C/C.m" "").bind fun e => (Item.mk 0 e).class?).any (fun c =>
      c.name == "C" && c.methods.keys == ["f", "g"] && c.methods.contains "g" &&
        (c.methods.get? "f").any fun m =>
          m.function.doc == some "Said." && m.attrs == ⟨[("Hidden", .bool true)]⟩) = true by
      decide +kernel)
  have files : tree.functionsIn "" ((["C.m", "f.m", "h.m"].map (PathText.join "/@C")).filter
      (tree.isMethodFile "/@C/C.m")) =
      [{ name := "f", scope := "", args := [{ name := "o" }], returns := [{ name := "r" }] },
        { name := "h", scope := "", args := [{ name := "o" }] }] := by
    decide +kernel
  have listed : tree.disk.list "/@C" = .ok ["C.m", "f.m", "h.m"] := by
    show Except.ok (List.mergeSort ["C.m", "f.m", "h.m"] fun a b => decide (a ≤ b)) = _
    rw [List.mergeSort_of_pairwise (by decide)]
  simp only [Bool.and_eq_true, beq_iff_eq] at declares
  obtain ⟨⟨⟨name, keys⟩, kept⟩, method⟩ := declares
  rcases there : declared.methods.get? "f" with _ | m
  · simp [there] at method
  · obtain ⟨doc, attrs⟩ : m.function.doc = some "Said." ∧ m.attrs = ⟨[("Hidden", .bool true)]⟩ := by
      simpa [there] using method
    obtain ⟨x, d, names, found, merges, listing, -, merged⟩ := classFolder_merges proper session
      List.mem_cons_self rfl (show "@C".toList = '@' :: "C".toList by decide) ⟨_, _, root, rfl, rfl⟩ parsed
    obtain rfl : ["C.m", "f.m", "h.m"] = names := Except.ok.inj (listed.symm.trans listing)
    replace merged : declared.MergedWith (tree.functionsIn "" ((["C.m", "f.m", "h.m"].map
        (PathText.join "/@C")).filter (tree.isMethodFile "/@C/C.m"))) d := merged
    rw [files] at merged
    have defined := merged.single [] _ _ rfl (by decide) (by decide)
    have untouched : d.methods.get? "g" = declared.methods.get? "g" := merged.untouched "g" (by decide)
    refine ⟨declared, x, d, parsed, found, merges, by rw [merged.rest], by rw [merged.rest], ?_, ?_, ?_, untouched⟩
    · rw [merged.keys, keys]
      decide +kernel
    · rw [defined, there, name]
      simp [doc, attrs]
    · rwa [Table.contains, untouched]

end MatlabOutline
