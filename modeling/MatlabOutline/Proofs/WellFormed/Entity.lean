import MatlabOutline.Attribute.Vocabulary
import MatlabOutline.Entity.Basic
import MatlabOutline.Proofs.Lexing.Spelling

/-!
Well-formed entities: what holds of everything that a source unit can declare, at every level of it.
-/

namespace MatlabOutline

/-- A text that says something, without white space around it. -/
structure Text.IsTrimmed (s : String) : Prop where
  filled : s ≠ ""
  front : s.toList.head?.any isBlank = false
  back : s.toList.getLast?.any isBlank = false

/-- A docstring says something. -/
def Docstring.IsSaid (doc : Option String) : Prop :=
  doc ≠ some ""

/-- The keys of a table are spellings of the vocabulary. -/
def Vocabulary.Spells (v : Vocabulary) (attrs : Table AttrValue) : Prop :=
  ∀ key ∈ attrs.keys, key ∈ v.attributes.map Prod.fst

structure ValueSpec.WellFormed (v : ValueSpec) : Prop where
  size : v.size ≠ some []
  typeName : ∀ name, v.typeName = some name → isDottedIdentifier name = true
  validators : ∀ texts, v.validators = some texts → ∀ text ∈ texts, Text.IsTrimmed text
  default : ∀ text, v.default = some text → Text.IsTrimmed text
  doc : Docstring.IsSaid v.doc

/-- A dotted identifier, or the placeholder. -/
def Argument.IsName (name : String) : Prop :=
  isDottedIdentifier name = true ∨ name = "~"

structure Argument.WellFormed (a : Argument) : Prop where
  name : IsName a.name
  spec : a.spec.WellFormed

def Arguments.WellFormed (args : Arguments) : Prop :=
  ∀ a ∈ args, a.WellFormed

/-- A function that was declared in `outer`. -/
structure FunctionDoc.WellFormed (outer : String) (f : FunctionDoc) : Prop where
  name : isDottedIdentifier f.name = true
  scope : f.scope = outer
  doc : Docstring.IsSaid f.doc
  args : Arguments.WellFormed f.args
  returns : Arguments.WellFormed f.returns

/-- A property under `key` of the class called `cls` in `outer`. -/
structure PropertyDoc.WellFormed (cls outer key : String) (p : PropertyDoc) : Prop where
  name : key = p.name
  identifier : isIdentifier key = true
  className : p.className = cls
  scope : p.scope = outer
  attrs : Vocabulary.ofProperty.Spells p.attrs
  spec : p.spec.WellFormed

/-- A method under `key` of the class called `cls` in `outer`. -/
structure MethodDoc.WellFormed (cls outer key : String) (m : MethodDoc) : Prop where
  name : key = m.function.name
  identifier : isIdentifier key = true
  plain : '.' ∉ key.toList
  className : m.className = cls
  attrs : Vocabulary.ofMethod.Spells m.attrs
  function : m.function.WellFormed outer

/-- A class that was expected to be called `cls` in `outer`. -/
structure ClassDoc.WellFormed (cls outer : String) (c : ClassDoc) : Prop where
  name : c.name = cls
  scope : c.scope = outer
  attrs : Vocabulary.ofClass.Spells c.attrs
  superclasses : ∀ base ∈ c.superclasses, isDottedIdentifier base = true
  doc : Docstring.IsSaid c.doc
  properties : ∀ entry ∈ c.properties.entries, entry.2.WellFormed cls outer entry.1
  methods : ∀ entry ∈ c.methods.entries, entry.2.WellFormed cls outer entry.1

/-- An entity that was expected to be called `name` in `scope`. -/
def Entity.WellFormed (name scope : String) : Entity → Prop
  | module m => Docstring.IsSaid m.doc
  | cls c => c.WellFormed name scope
  | function f => f.WellFormed scope
  | script s => Docstring.IsSaid s.doc
  | application a => Docstring.IsSaid a.doc

theorem Table.mem_put {α : Type} {key : String} {value : α} {l : List (String × α)} {x : String × α}
    (member : x ∈ put key value l) : x = (key, value) ∨ x ∈ l := by
  fun_induction put key value l with
  | case1 => simpa using member
  | case2 v r => exact (List.mem_cons.mp member).imp_right (List.mem_cons_of_mem _)
  | case3 k v r away ih =>
    rcases List.mem_cons.mp member with rfl | later
    · exact .inr List.mem_cons_self
    · exact (ih later).imp_right (List.mem_cons_of_mem _)

theorem Table.mem_insert {α : Type} {t : Table α} {key : String} {value : α} {x : String × α}
    (member : x ∈ (t.insert key value).entries) : x = (key, value) ∨ x ∈ t.entries :=
  mem_put member

theorem Vocabulary.spells_empty (v : Vocabulary) : v.Spells {} := by
  intro key member
  simp [Table.keys] at member

theorem Vocabulary.Spells.insert {v : Vocabulary} {t : Table AttrValue} (spelled : v.Spells t)
    {key : String} (spelling : key ∈ v.attributes.map Prod.fst) (value : AttrValue) :
    v.Spells (t.insert key value) := by
  intro k member
  rw [Table.keys_insert] at member
  split at member
  · exact spelled k member
  · rcases List.mem_append.mp member with old | new
    · exact spelled k old
    · obtain rfl : k = key := by simpa using new
      exact spelling

theorem Vocabulary.spelling_of_lookup {v : Vocabulary} {name spelling : String} {kind : AttrKind}
    (known : v.lookup name = some (spelling, kind)) : spelling ∈ v.attributes.map Prod.fst :=
  List.mem_map.mpr ⟨_, List.mem_of_find?_eq_some known, rfl⟩

theorem ValueSpec.wellFormed_empty : ValueSpec.WellFormed {} :=
  ⟨by simp, by simp, by simp, by simp, by simp [Docstring.IsSaid]⟩

namespace Arguments

theorem wellFormed_ofNames {names : List String} (named : ∀ name ∈ names, Argument.IsName name) :
    WellFormed (ofNames names) := by
  intro a member
  obtain ⟨name, listed, rfl⟩ := List.mem_map.mp member
  exact ⟨named name listed, ValueSpec.wellFormed_empty⟩

/-- What is said of an argument may change, and an argument may be added. -/
theorem WellFormed.specify {args : Arguments} (formed : WellFormed args) {name : String}
    (named : Argument.IsName name) {spec : ValueSpec} (fit : spec.WellFormed) :
    WellFormed (args.specify name spec) := by
  unfold Arguments.specify
  induction args with
  | nil =>
    intro a member
    obtain rfl : a = ⟨name, spec⟩ := by simpa [modify] using member
    exact ⟨named, fit⟩
  | cons b r ih =>
    obtain ⟨first, others⟩ := List.forall_mem_cons.mp formed
    rw [modify]
    split
    · exact List.forall_mem_cons.mpr ⟨⟨first.name, fit⟩, others⟩
    · exact List.forall_mem_cons.mpr ⟨first, ih others⟩

end Arguments

/-- A well-formed function stays so with another docstring. -/
theorem FunctionDoc.WellFormed.document {outer : String} {f : FunctionDoc} (formed : f.WellFormed outer)
    {doc : Option String} (said : Docstring.IsSaid doc) :
    FunctionDoc.WellFormed outer { f with doc := doc } :=
  ⟨formed.name, formed.scope, said, formed.args, formed.returns⟩

/-- The parts between points have the characters of words, and nothing else stands between them. -/
theorem isIdentRest_of_splitAt {cs : List Char}
    (parts : (Text.splitAt '.' cs).all (·.all isIdentRest) = true) :
    ∀ c ∈ cs, c = '.' ∨ isIdentRest c = true := by
  induction cs with
  | nil => simp
  | cons c cs ih =>
    by_cases point : c = '.'
    · have later : (Text.splitAt '.' cs).all (·.all isIdentRest) = true := by
        simpa [Text.splitAt, point] using parts
      exact List.forall_mem_cons.mpr ⟨.inl point, ih later⟩
    · obtain ⟨p, ps, cut⟩ := List.exists_cons_of_ne_nil (Text.splitAt_ne_nil '.' cs)
      simp only [Text.splitAt, if_neg point, cut, List.all_cons, Bool.and_eq_true] at parts
      have later : (Text.splitAt '.' cs).all (·.all isIdentRest) = true := by
        simp [cut, parts]
      exact List.forall_mem_cons.mpr ⟨.inr parts.1.1, ih later⟩

theorem all_isIdentRest_of_identifier {cs : List Char} (word : isIdentifierChars cs = true) :
    cs.all isIdentRest = true := by
  rcases cs with _ | ⟨c, r⟩
  · rfl
  · rw [isIdentifierChars, Bool.and_eq_true] at word
    rw [List.all_cons, isIdentRest_of_isIdentStart c word.1, word.2]
    rfl

/-- With its points written as underscores a dotted identifier is an identifier. -/
theorem isIdentifier_normalName {name : String} (dotted : isDottedIdentifier name = true) :
    isIdentifier (MethodDoc.normalName name) = true := by
  rw [isDottedIdentifier_eq, isDottedChars] at dotted
  rw [isIdentifier, MethodDoc.normalName, String.toList_ofList]
  have chars := isIdentRest_of_splitAt (List.all_eq_true.mpr fun part member =>
    all_isIdentRest_of_identifier (List.all_eq_true.mp dotted part member))
  generalize name.toList = text at dotted chars
  rcases text with _ | ⟨c, cs⟩
  · simp [Text.splitAt, isIdentifierChars] at dotted
  · have start : isIdentStart c = true ∧ c ≠ '.' := by
      by_cases point : c = '.'
      · simp [Text.splitAt, point, isIdentifierChars] at dotted
      · obtain ⟨p, ps, cut⟩ := List.exists_cons_of_ne_nil (Text.splitAt_ne_nil '.' cs)
        simp only [Text.splitAt, if_neg point, cut, List.all_cons, Bool.and_eq_true,
          isIdentifierChars] at dotted
        exact ⟨dotted.1.1, point⟩
    have rest : (cs.map fun c => if c = '.' then '_' else c).all isIdentRest = true := by
      rw [List.all_map, List.all_eq_true]
      intro d member
      rw [Function.comp_apply]
      split
      · decide
      · next other => exact (chars d (List.mem_cons_of_mem _ member)).resolve_left other
    rw [List.map_cons, if_neg start.2, isIdentifierChars, start.1, rest]
    rfl

end MatlabOutline
