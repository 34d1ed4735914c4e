import MatlabOutline.Proofs.Catalog.MergedClass

/-!
Methods that the class file declares and a file of its own defines. Main statement: what the declaration says of
such a method is kept exactly if the name of the function has no points, or there is nothing to be kept
(`classFolder_keeps_declaration_iff`).
-/

namespace MatlabOutline

open Catalog Law

/-- What stands in a declaration and is to be kept where a function in a file of its own takes its place: the
attributes, and the docstring if the function has none. -/
def MethodDoc.Keeps (method declared : MethodDoc) (f : FunctionDoc) : Prop :=
  method.attrs = declared.attrs ∧ (f.doc = none → method.function.doc = declared.function.doc)

namespace ClassDoc

variable {declared : ClassDoc} {f : FunctionDoc}

/-- The name of a function, as it is written, names a method only if it has no points. -/
theorem get?_of_dotted (plain : ∀ entry ∈ declared.methods.entries, '.' ∉ entry.1.toList)
    (dotted : '.' ∈ f.name.toList) : declared.methods.get? f.name = none := by
  cases found : declared.methods.get? f.name with
  | none => rfl
  | some method => exact absurd dotted (plain _ (Table.mem_entries_of_get? found))

/-- Where one function alone defines a method, the other functions do not change what becomes of it. -/
theorem get?_foldl_alone {before after : List FunctionDoc}
    (alone : ∀ g ∈ before ++ after, MethodDoc.normalName g.name ≠ MethodDoc.normalName f.name) :
    ((before ++ f :: after).foldl mergeMethod declared).methods.get? (MethodDoc.normalName f.name) =
      some (declared.definedBy f) := by
  rw [List.forall_mem_append] at alone
  have class' : (before.foldl mergeMethod declared).name = declared.name := by rw [rest_foldl]
  -- A dotted name is no key before the merge or after it, and a plain one is the key that is defined here alone.
  have known : (before.foldl mergeMethod declared).methods.get? f.name = declared.methods.get? f.name := by
    refine untouched_foldl declared fun g member same => ?_
    have plain : '.' ∉ f.name.toList := same ▸ Reader.plain_normalName g.name
    exact alone.1 g member (same.trans (normalName_of_plain plain).symm)
  rw [List.foldl_append, List.foldl_cons, untouched_foldl _ alone.2, get?_mergeMethod, if_pos rfl, definedBy,
    definedBy, known, class']

/-- The merge finds the declaration by the name as it is written, and so only if the name has no points. -/
theorem keeps_definedBy_iff (plain : ∀ entry ∈ declared.methods.entries, '.' ∉ entry.1.toList)
    {old : MethodDoc} (there : declared.methods.get? (MethodDoc.normalName f.name) = some old) :
    (declared.definedBy f).Keeps old f ↔
      '.' ∉ f.name.toList ∨ old.attrs = {} ∧ (f.doc = none → old.function.doc = none) := by
  by_cases dotted : '.' ∈ f.name.toList
  · have unknown := get?_of_dotted plain dotted
    have attrs : (declared.definedBy f).attrs = {} := by simp [definedBy, MethodDoc.ofFunction, unknown]
    have doc : (declared.definedBy f).function.doc = f.doc := by
      simp [definedBy, MethodDoc.ofFunction, unknown]
    rw [MethodDoc.Keeps, attrs, doc]
    constructor
    · rintro ⟨same, kept⟩
      exact .inr ⟨same.symm, fun none => (kept none).symm.trans none⟩
    · rintro (absent | ⟨bare, kept⟩)
      · exact absurd dotted absent
      · exact ⟨bare.symm, fun none => none.trans (kept none).symm⟩
  · rw [normalName_of_plain dotted] at there
    refine ⟨fun _ => .inl dotted, fun _ => ⟨?_, fun none => ?_⟩⟩
    · simp [definedBy, MethodDoc.ofFunction, there]
    · simp [definedBy, MethodDoc.ofFunction, there, none]

end ClassDoc

namespace SourceTree

variable {tree : SourceTree}

theorem mem_functionsIn {scope : String} {paths : List String} {g : FunctionDoc} :
    g ∈ tree.functionsIn scope paths ↔ ∃ path ∈ paths, tree.fileEntity path scope = some (.function g) := by
  rw [functionsIn, List.mem_filterMap]
  refine exists_congr fun path => and_congr_right fun _ => ?_
  split <;> simp_all

theorem functionsIn_append (scope : String) (before after : List String) :
    tree.functionsIn scope (before ++ after) = tree.functionsIn scope before ++ tree.functionsIn scope after :=
  List.filterMap_append

theorem functionsIn_cons {scope file : String} {after : List String} {f : FunctionDoc}
    (defines : tree.fileEntity file scope = some (.function f)) :
    tree.functionsIn scope (file :: after) = f :: tree.functionsIn scope after := by
  simp only [functionsIn, List.filterMap_cons, defines]

/-- The class of a class folder in a session: what the class file declares, with the functions in the other files
taken in one after the other. -/
theorem exists_classFolder (proper : tree.disk.root.Proper) {given : List Item} {c : Catalog}
    (session : Session tree Call.IsFlat [] {} given c) {item : Item} (inside : item ∈ given) {m : ModuleDoc}
    (isModule : item.module? = some m) {name : String} {cls : List Char} (marked : name.toList = '@' :: cls)
    (folder : tree.disk.HasFolder m.path name) {declared : ClassDoc}
    (parsed : tree.fileEntity (PathText.join (PathText.join m.path name) (String.ofList cls ++ ".m")) m.name =
      some (.cls declared)) {names : List String}
    (listed : tree.disk.list (PathText.join m.path name) = .ok names) :
    let path := PathText.join m.path name
    let classFile := PathText.join path (String.ofList cls ++ ".m")
    ∃ x, ((tree.classFolder path (String.ofList cls) m.name).run c).1 = some x ∧
      x.class? = some ((tree.functionsIn m.name ((names.map (PathText.join path)).filter
        (tree.isMethodFile classFile))).foldl ClassDoc.mergeMethod declared) := by
  intro path classFile
  obtain ⟨⟨flat, there⟩, -⟩ := session.exists_members proper inside isModule
  obtain ⟨same, valid, -⟩ := moduleDoc?_eq_some there
  have home : m.path = tree.modulePath m.name := congrArg ModuleDoc.path same
  have entry := isEntryName_of_hasFolder proper there folder
  obtain ⟨ids, kept, -⟩ := session.exists_faithful proper
  obtain ⟨_, -, -, -, shown⟩ := faithful_classFolder proper flat valid entry marked ids c List.prefix_rfl kept
  rw [← home] at shown
  have means : tree.classFolderEntity path (String.ofList cls) m.name =
      some (.cls (tree.mergedClass m.name declared
        ((names.map (PathText.join path)).filter (tree.isMethodFile classFile)))) := by
    simp only [classFolderEntity]
    rw [parsed]
    simp only [path, listed]
    rfl
  rw [means, mergedClass_eq] at shown
  obtain ⟨x, found, entity⟩ := Option.map_eq_some_iff.mp shown
  exact ⟨x, found, by rw [Item.class?, entity]⟩

end SourceTree

section OneFile

variable {tree : SourceTree} {given : List Item} {c : Catalog} {item : Item} {m : ModuleDoc} {name : String}
  {cls : List Char} {declared : ClassDoc} {names before after : List String} {file : String} {f : FunctionDoc}
  (proper : tree.disk.root.Proper) (session : Session tree Call.IsFlat [] {} given c) (inside : item ∈ given)
  (isModule : item.module? = some m) (marked : name.toList = '@' :: cls) (folder : tree.disk.HasFolder m.path name)
  (parsed : tree.fileEntity (PathText.join (PathText.join m.path name) (String.ofList cls ++ ".m")) m.name =
    some (.cls declared))
  (listed : tree.disk.list (PathText.join m.path name) = .ok names)
  (cut : (names.map (PathText.join (PathText.join m.path name))).filter
    (tree.isMethodFile (PathText.join (PathText.join m.path name) (String.ofList cls ++ ".m"))) =
      before ++ file :: after)
  (defines : tree.fileEntity file m.name = some (.function f))
  (alone : ∀ other ∈ before ++ after, ∀ g, tree.fileEntity other m.name = some (.function g) →
    MethodDoc.normalName g.name ≠ MethodDoc.normalName f.name)

include proper session inside isModule marked folder parsed listed cut defines alone

theorem exists_classFolder_method :
    ∃ x d, ((tree.classFolder (PathText.join m.path name) (String.ofList cls) m.name).run c).1 = some x ∧
      x.class? = some d ∧ d.methods.get? (MethodDoc.normalName f.name) = some (declared.definedBy f) := by
  obtain ⟨x, found, isClass⟩ :=
    SourceTree.exists_classFolder proper session inside isModule marked folder parsed listed
  rw [cut, SourceTree.functionsIn_append, SourceTree.functionsIn_cons defines] at isClass
  refine ⟨x, _, found, isClass, ClassDoc.get?_foldl_alone fun g member => ?_⟩
  rw [← SourceTree.functionsIn_append, SourceTree.mem_functionsIn] at member
  obtain ⟨other, among, here⟩ := member
  exact alone other among g here

/-- A method that the class file declares, defined by one of the other files alone. The method is the function of
that file; what the declaration says besides is kept if the function has the name of the method. An accessor such as
`get.Value` declares the method `get_Value`, but the function in the file is looked up as `get.Value`, and is taken
for one that the class file does not declare. -/
theorem classFolder_keeps_declaration_iff {old : MethodDoc}
    (there : declared.methods.get? (MethodDoc.normalName f.name) = some old) :
    ∃ x d method, ((tree.classFolder (PathText.join m.path name) (String.ofList cls) m.name).run c).1 = some x ∧
      x.class? = some d ∧ d.methods.get? (MethodDoc.normalName f.name) = some method ∧
      method.function = { f with name := MethodDoc.normalName f.name, doc := method.function.doc } ∧
      (f.doc ≠ none → method.function.doc = f.doc) ∧
      (method.Keeps old f ↔
        '.' ∉ f.name.toList ∨ old.attrs = {} ∧ (f.doc = none → old.function.doc = none)) := by
  obtain ⟨x, d, found, isClass, defined⟩ := exists_classFolder_method proper session inside isModule marked folder
    parsed listed cut defines alone
  refine ⟨x, d, declared.definedBy f, found, isClass, defined, rfl, fun said => ?_,
    ClassDoc.keeps_definedBy_iff (SourceTree.plain_of_fileEntity parsed) there⟩
  obtain ⟨doc, text⟩ := Option.ne_none_iff_exists'.mp said
  simp [ClassDoc.definedBy, MethodDoc.ofFunction, text]

end OneFile

/-- A class folder in a source tree of its own, with the texts of the class file and of one file besides. -/
def classAndFile (declaration file definition : String) : SourceTree :=
  let source (text : String) : Bytes := text.toList.map fun c => UInt8.ofNat c.toNat
  ⟨{ root := .folder [("@C", .folder [("C.m", .file (source declaration)), (file, .file (source definition))])] },
    { root := "/" }⟩

theorem proper_classAndFile (declaration definition : String) {file : String} (entry : IsEntryName file) :
    (classAndFile declaration file definition).disk.root.Proper := by
  refine .folder _ (by simp; decide) fun e member => ?_
  cases List.mem_singleton.mp member
  refine .folder _ (by simpa using ⟨by decide, entry⟩) ?_
  simpa using ⟨.file _, .file _⟩

theorem list_classAndFile (declaration definition : String) {file : String} (sorted : "C.m" ≤ file) :
    (classAndFile declaration file definition).disk.list "/@C" = .ok ["C.m", file] := by
  show Except.ok (List.mergeSort ["C.m", file] fun a b => decide (a ≤ b)) = _
  rw [List.mergeSort_of_pairwise (by simpa using sorted)]

theorem exists_function_of_any {e : Option Entity} {p : FunctionDoc → Bool}
    (holds : (e.bind fun e => (Item.mk 0 e).function?).any p = true) :
    ∃ f, e = some (.function f) ∧ p f = true := by
  cases e with
  | none => simp at holds
  | some e =>
    cases e with
    | function f => exact ⟨f, rfl, holds⟩
    | _ => simp [Item.function?] at holds

/-- A private method that is declared by its name. -/
theorem classFolder_keeps_declaration_private :
    let tree := classAndFile "classdef C\nmethods (Access = private)\nf\nend\nend\n" "f.m"
      "function f\nend\n"
    let c := (((Call.module "").run tree).run {}).2
    ∃ declared old f x d method, tree.fileEntity "/@C/C.m" "" = some (.cls declared) ∧
      declared.methods.get? "f" = some old ∧ tree.fileEntity "/@C/f.m" "" = some (.function f) ∧
      ((tree.classFolder "/@C" "C" "").run c).1 = some x ∧ x.class? = some d ∧
      d.methods.get? "f" = some method ∧ method.Keeps old f := by
  intro tree c
  let item : Item := ⟨0, .module { name := "", path := "/", doc := none }⟩
  have loaded : (((Call.module "").run tree).run {}).1 = .one (some item) := by decide +kernel
  have session : Session tree Call.IsFlat [] {} [item] c := .ofRoot loaded
  obtain ⟨declared, isClass, declares⟩ := exists_class_of_any
    (show ((tree.fileEntity "/@C/C.m" "").bind fun e => (Item.mk 0 e).class?).any
      (fun c => (c.methods.get? "f").isSome) = true by decide +kernel)
  obtain ⟨f, isFunction, name⟩ := exists_function_of_any
    (show ((tree.fileEntity "/@C/f.m" "").bind fun e => (Item.mk 0 e).function?).any (·.name == "f") = true by
      decide +kernel)
  obtain ⟨old, there⟩ := Option.isSome_iff_exists.mp declares
  have paths : (["C.m", "f.m"].map (PathText.join "/@C")).filter (tree.isMethodFile "/@C/C.m") =
      [] ++ "/@C/f.m" :: [] := by decide +kernel
  have name : f.name = "f" := by simpa using name
  have named : MethodDoc.normalName f.name = "f" := by
    rw [name]
    decide
  obtain ⟨x, d, method, found, here, kept, -, -, keeps⟩ := classFolder_keeps_declaration_iff
    (proper_classAndFile _ _ (by decide)) session List.mem_cons_self rfl
    (show "@C".toList = '@' :: "C".toList by decide) ⟨_, _, rfl, rfl, rfl⟩ isClass
    (list_classAndFile _ _ (by decide)) paths isFunction (by simp) (named.symm ▸ there)
  exact ⟨declared, old, f, x, d, method, isClass, there, isFunction, found, here, named ▸ kept,
    keeps.mpr (.inl (by rw [name]; decide))⟩

/-- A private accessor that is declared, and its function in a file: the method is not private. -/
theorem classFolder_drops_declaration :
    let tree := classAndFile "classdef C\nmethods (Access = private)\nget.x\nend\nend\n" "get.x.m"
      "function get.x\nend\n"
    let c := (((Call.module "").run tree).run {}).2
    ∃ declared old f x d method, tree.disk.list "/@C" = .ok ["C.m", "get.x.m"] ∧
      tree.fileEntity "/@C/C.m" "" = some (.cls declared) ∧ declared.methods.get? "get_x" = some old ∧
      tree.fileEntity "/@C/get.x.m" "" = some (.function f) ∧ MethodDoc.normalName f.name = "get_x" ∧
      ((tree.classFolder "/@C" "C" "").run c).1 = some x ∧ x.class? = some d ∧
      d.methods.get? "get_x" = some method ∧ method.attrs ≠ old.attrs := by
  intro tree c
  let item : Item := ⟨0, .module { name := "", path := "/", doc := none }⟩
  have loaded : (((Call.module "").run tree).run {}).1 = .one (some item) := by decide +kernel
  have session : Session tree Call.IsFlat [] {} [item] c := .ofRoot loaded
  obtain ⟨declared, isClass, declares⟩ := exists_class_of_any
    (show ((tree.fileEntity "/@C/C.m" "").bind fun e => (Item.mk 0 e).class?).any
      (fun c => (c.methods.get? "get_x").any (·.attrs != {})) = true by decide +kernel)
  obtain ⟨f, isFunction, name⟩ := exists_function_of_any
    (show ((tree.fileEntity "/@C/get.x.m" "").bind fun e => (Item.mk 0 e).function?).any (·.name == "get.x") = true
      by decide +kernel)
  obtain ⟨old, there, said⟩ := (Option.any_eq_true ..).mp declares
  have paths : (["C.m", "get.x.m"].map (PathText.join "/@C")).filter (tree.isMethodFile "/@C/C.m") =
      [] ++ "/@C/get.x.m" :: [] := by decide +kernel
  have name : f.name = "get.x" := by simpa using name
  have named : MethodDoc.normalName f.name = "get_x" := by
    rw [name]
    decide
  have listed := list_classAndFile "classdef C\nmethods (Access = private)\nget.x\nend\nend\n"
    "function get.x\nend\n" (show "C.m" ≤ "get.x.m" by decide)
  obtain ⟨x, d, found, here, defined⟩ := exists_classFolder_method
    (proper_classAndFile _ _ (by decide)) session List.mem_cons_self rfl
    (show "@C".toList = '@' :: "C".toList by decide) ⟨_, _, rfl, rfl, rfl⟩ isClass listed paths isFunction (by simp)
  have unknown : declared.methods.get? f.name = none :=
    ClassDoc.get?_of_dotted (SourceTree.plain_of_fileEntity isClass) (by rw [name]; decide)
  refine ⟨declared, old, f, x, d, _, listed, isClass, there, isFunction, named, found, here, named ▸ defined, ?_⟩
  have bare : (declared.definedBy f).attrs = {} := by simp [ClassDoc.definedBy, MethodDoc.ofFunction, unknown]
  have filled : old.attrs ≠ {} := by simpa using said
  exact bare ▸ filled.symm

end MatlabOutline
