import MatlabOutline.Catalog.Basic
import MatlabOutline.Proofs.Reports.ReportedLines
import MatlabOutline.Proofs.WellFormed.Entries

/-!
Everything that a source unit declares is well formed (`parseUnit_wellFormed`).
-/

namespace MatlabOutline

namespace Cursor

variable {c : Cursor}

/-- The outputs of a signature are identifiers, and it declares a dotted one. -/
theorem named_signature {outputs : List String} (spelled : SpelledOut c.tokens)
    (before : ∀ name ∈ outputs, Argument.IsName name) {result : (List String × Token) × Cursor}
    (read : c.signature outputs = .ok result) :
    (∀ name ∈ result.1.1, Argument.IsName name) ∧ isDottedIdentifier result.1.2.text = true := by
  fun_induction signature outputs c generalizing result
  case case2 outputs c start t here named =>
    cases read
    have admits := spelled t (c.tokens_skipWhitespace ▸ mem_of_peek here)
    rw [show t.kind = .nameFunction by simpa using named] at admits
    exact ⟨before, admits⟩
  case case3 outputs c start t here _ name ih =>
    have word := identifier_of_isName (c.tokens_skipWhitespace.symm ▸ spelled) here name
    apply ih _ _ read
    · simpa [start] using spelled
    · intro other member
      rcases List.mem_append.mp member with old | new
      · exact before other old
      · exact List.mem_singleton.mp new ▸ .inl (isDottedIdentifier_of_isIdentifier word)
  case case4 outputs c start t here _ _ _ ih =>
    exact ih (by simpa [start] using spelled) before read
  all_goals simp at read

theorem named_parametersFrom {names : List String} {name : Bool} (spelled : SpelledOut c.tokens)
    (before : ∀ name ∈ names, Argument.IsName name) {result : List String × Cursor}
    (read : c.parametersFrom names name = .ok result) :
    ∀ name ∈ result.1, Argument.IsName name := by
  fun_induction parametersFrom names name c generalizing result
  case case2 =>
    cases read
    exact before
  case case3 names name c start t here _ param ih =>
    have named : Argument.IsName t.text := by
      rw [Bool.and_eq_true, isParameter, Bool.or_eq_true] at param
      rcases param.2 with word | placeholder
      · have identifier := identifier_of_isName (c.tokens_skipWhitespace.symm ▸ spelled) here word
        exact .inl (isDottedIdentifier_of_isIdentifier identifier)
      · exact .inr (by simp_all [Token.isOperator, Token.is])
    apply ih _ _ read
    · simpa [start] using spelled
    · intro other member
      rcases List.mem_append.mp member with old | new
      · exact before other old
      · exact List.mem_singleton.mp new ▸ named
  case case4 names name c start t here _ _ _ ih =>
    exact ih (by simpa [start] using spelled) before read
  all_goals simp at read

theorem named_parameters (spelled : SpelledOut c.tokens) {result : List String × Cursor}
    (read : c.parameters = .ok result) : ∀ name ∈ result.1, Argument.IsName name := by
  unfold parameters at read
  split at read
  · next t c' opened =>
    have inside : c'.tokens = c.tokens := by simpa using tokens_take? opened
    exact named_parametersFrom (inside ▸ spelled) (by simp) read
  · cases read
    simp

end Cursor

namespace Reader

variable {run : List Token} {r : Reader}

theorem spells_oneAttribute {v : Vocabulary} {result : (String × AttrValue) × Reader}
    (read : r.oneAttribute v = .ok result) : result.1.1 ∈ v.attributes.map Prod.fst := by
  unfold oneAttribute at read
  simp only at read
  split at read
  · simp at read
  · split at read
    · simp at read
    · next spelling kind known =>
      split at read
      · simp at read
      · cases read
        exact Vocabulary.spelling_of_lookup known

theorem spells_attributesFrom {v : Vocabulary} {table : Table AttrValue} (before : v.Spells table)
    {result : Table AttrValue × Reader} (read : r.attributesFrom v table = .ok result) :
    v.Spells result.1 := by
  fun_induction attributesFrom v table r generalizing result with
  | case1 =>
    cases read
    exact before
  | case2 => simp at read
  | case3 table r start _ spelling value r' item behind =>
    rename_i ih
    exact ih (before.insert (spells_oneAttribute item) value) read
  | case4 table r start _ spelling value r' item =>
    cases read
    exact before.insert (spells_oneAttribute item) value
  | case5 => simp at read

theorem spells_attributes {v : Vocabulary} {result : Table AttrValue × Reader}
    (read : r.attributes v = .ok result) : v.Spells result.1 := by
  unfold attributes at read
  split at read
  · exact spells_attributesFrom v.spells_empty read
  · cases read
    exact v.spells_empty

theorem spells_blockHeader {v : Vocabulary} {result : Table AttrValue × Reader}
    (read : r.blockHeader v = .ok result) : v.Spells result.1 := by
  unfold blockHeader at read
  split at read
  · simp at read
  · next attrs r' list =>
    have spelled := spells_attributes list
    cases read
    exact spelled

theorem wellFormed_specifyAll {args : Arguments} (formed : Arguments.WellFormed args)
    {entries : List Entry} (listed : ∀ e ∈ entries, Entry.IsName true e.name ∧ e.spec.WellFormed) :
    Arguments.WellFormed (specifyAll args entries) := by
  unfold specifyAll
  induction entries generalizing args with
  | nil => exact formed
  | cons e entries ih =>
    obtain ⟨⟨named, spec⟩, later⟩ := List.forall_mem_cons.mp listed
    exact ih (formed.specify (.inl named.1) spec) later

variable {outer : String} {f : FunctionDoc}

theorem wellFormed_argumentsBlock (formed : f.WellFormed outer) (spelled : SpelledOut run)
    (inside : r.cursor.tokens = run) {result : FunctionDoc × Reader}
    (read : r.argumentsBlock f = .ok result) : result.1.WellFormed outer := by
  have list := r.sees_header .ofArguments
  unfold argumentsBlock at read
  split at read
  · simp at read
  · next attrs r' header =>
    rw [header] at list
    have line : (r'.withCursor r'.cursor.finishLine.2).cursor.tokens = run :=
      (Cursor.tokens_finishLine _).trans (list.run.trans inside)
    have listed := wellFormed_entries .arguments true spelled line
    simp only at read
    split at read
    · cases read
      exact { formed with returns := wellFormed_specifyAll formed.returns listed }
    · cases read
      exact { formed with args := wellFormed_specifyAll formed.args listed }

theorem wellFormed_argumentBlocks (formed : f.WellFormed outer) (spelled : SpelledOut run)
    (inside : r.cursor.tokens = run) {result : FunctionDoc × Reader}
    (read : r.argumentBlocks f = .ok result) : result.1.WellFormed outer := by
  have first (r : Reader) (inside : r.cursor.tokens = run) :
      (r.move (·.skip fun t => t.isSpacing || t.kind == .comment)).cursor.tokens = run :=
    (Cursor.tokens_skip r.cursor _).trans inside
  fun_induction argumentBlocks f r generalizing result with
  | case1 =>
    cases read
    exact formed
  | case2 => simp at read
  | case3 f r start t here _ f' r' block ih =>
    have behind := start.sees_argumentsBlock f
    rw [block] at behind
    exact ih (wellFormed_argumentsBlock formed spelled (first r inside) block)
      (behind.run.trans (first r inside)) read
  | case4 =>
    cases read
    exact formed

theorem isSaid_docAfter (trailing : Option Token) (comments : List String) :
    Docstring.IsSaid (docAfter trailing comments) := by
  unfold docAfter
  refine Docstring.IsSaid.orElse (Docstring.isSaid_ofComments comments) ?_
  rcases trailing with _ | t
  · simp [Docstring.IsSaid]
  · rw [Option.bind_some]
    exact Docstring.isSaid_ofComments [t.text]

theorem wellFormed_shortBody (formed : f.WellFormed outer) (r : Reader) :
    (shortBody f r).1.WellFormed outer := by
  unfold shortBody
  rcases r.cursor.skipBlock.2.finishLine with ⟨_ | t, c⟩
  · exact formed.document (Docstring.isSaid_ofComments c.commentRun.1)
  · exact formed.document (Docstring.isSaid_ofComments [t.text])

theorem wellFormed_longBody (formed : f.WellFormed outer) (spelled : SpelledOut run)
    (inside : r.cursor.tokens = run) {trailing : Option Token} {result : FunctionDoc × Reader}
    (read : longBody f trailing r = .ok result) : result.1.WellFormed outer := by
  have comments : (r.withCursor r.cursor.commentRun.2).cursor.tokens = run :=
    (Cursor.tokens_commentRun _).trans inside
  have documented := formed.document (isSaid_docAfter trailing r.cursor.commentRun.1)
  simp only [longBody] at read
  split at read
  · simp at read
  · next f' r' blocks =>
    have behind := wellFormed_argumentBlocks documented spelled comments blocks
    cases read
    exact behind

/-- A function that is read is well formed. -/
theorem wellFormed_function {expected : Option String} (spelled : SpelledOut run)
    (inside : r.cursor.tokens = run) {result : FunctionDoc × Reader}
    (read : r.function outer expected = .ok result) : result.1.WellFormed outer := by
  have start : (r.cursor.skipIf (·.isKeyword "function")).tokens = run :=
    (Cursor.tokens_skipIf _ _).trans inside
  have sign := (r.cursor.skipIf (·.isKeyword "function")).ends_signature []
  unfold function at read
  split at read
  · simp at read
  · next outputs name c signed =>
    obtain ⟨outs, called⟩ := Cursor.named_signature (start ▸ spelled) (by simp) signed
    rw [signed, start] at sign
    have list := c.ends_parameters
    rw [sign] at list
    simp only at read
    split at read
    · simp at read
    · next params c' listed =>
      have ins := Cursor.named_parameters (sign ▸ spelled) listed
      rw [listed] at list
      have line := (Cursor.tokens_finishLine c').trans list
      have formed : FunctionDoc.WellFormed outer
          { name := name.text, scope := outer, args := .ofNames params, returns := .ofNames outputs } :=
        ⟨called, rfl, by simp [Docstring.IsSaid], Arguments.wellFormed_ofNames ins,
          Arguments.wellFormed_ofNames outs⟩
      split at read
      · cases read
        exact wellFormed_shortBody formed _
      · exact wellFormed_longBody formed spelled line read

theorem dotted_superclassesFrom {names : List String} (spelled : SpelledOut r.cursor.tokens)
    (before : ∀ name ∈ names, isDottedIdentifier name = true) :
    ∀ name ∈ (r.superclassesFrom names).1, isDottedIdentifier name = true := by
  have further {r : Reader} {names : List String} {name : String} {c' : Cursor}
      (spelled : SpelledOut r.cursor.tokens)
      (before : ∀ name ∈ names, isDottedIdentifier name = true)
      (read : r.cursor.skipWhitespace.dottedName? = some (name, c')) :
      ∀ base ∈ names ++ [name], isDottedIdentifier base = true := by
    intro base member
    rcases List.mem_append.mp member with old | new
    · exact before base old
    · rw [List.mem_singleton.mp new]
      exact Cursor.dotted_dottedName? ((Cursor.tokens_skipWhitespace _).symm ▸ spelled) read
  fun_induction superclassesFrom names r with
  | case1 names r c missing => exact before
  | case2 names r c name c' read t c'' mark ih =>
    apply ih
    · have behind : c''.tokens = r.cursor.tokens := by
        rw [Cursor.tokens_take? mark, Cursor.tokens_skipWhitespace, Cursor.tokens_dottedName? read,
          Cursor.tokens_skipWhitespace]
      exact behind.symm ▸ spelled
    · exact further spelled before read
  | case3 names r c name c' read => exact further spelled before read

theorem dotted_superclasses (spelled : SpelledOut r.cursor.tokens) :
    ∀ name ∈ r.superclasses.1, isDottedIdentifier name = true := by
  unfold superclasses
  split
  · next t c mark =>
    have behind := (Cursor.tokens_take? mark).trans (Cursor.tokens_skipWhitespace _)
    exact dotted_superclassesFrom (behind.symm ▸ spelled) (by simp)
  · simp

variable {cls : String} {c : ClassDoc}

theorem wellFormed_addProperties (formed : c.WellFormed cls outer) {attrs : Table AttrValue}
    (spelled : Vocabulary.ofProperty.Spells attrs) {entries : List Entry}
    (listed : ∀ e ∈ entries, Entry.IsName false e.name ∧ e.spec.WellFormed) :
    (addProperties c attrs entries).WellFormed cls outer := by
  unfold addProperties
  induction entries generalizing c with
  | nil => exact formed
  | cons e entries ih =>
    obtain ⟨⟨named, spec⟩, later⟩ := List.forall_mem_cons.mp listed
    have property : (propertyOf c attrs e).WellFormed cls outer e.name :=
      ⟨rfl, named.2 rfl, formed.name, formed.scope, spelled, spec⟩
    refine ih { formed with properties := fun entry member => ?_ } later
    rcases Table.mem_insert member with rfl | old
    · exact property
    · exact formed.properties entry old

/-- The name of a method has no points. -/
theorem plain_normalName (name : String) : '.' ∉ (MethodDoc.normalName name).toList := by
  rw [MethodDoc.normalName, String.toList_ofList]
  intro member
  obtain ⟨c, -, written⟩ := List.mem_map.mp member
  split at written
  · exact absurd written (by decide)
  · next other => exact other written

theorem wellFormed_addMethod (formed : c.WellFormed cls outer) {attrs : Table AttrValue}
    (spelled : Vocabulary.ofMethod.Spells attrs) (function : f.WellFormed outer) :
    (addMethod c attrs f).WellFormed cls outer := by
  have word := isIdentifier_normalName function.name
  have method : (MethodDoc.ofFunction f attrs c.name).WellFormed cls outer
      (MethodDoc.normalName f.name) :=
    ⟨rfl, word, plain_normalName f.name, formed.name, spelled,
      isDottedIdentifier_of_isIdentifier word, function.scope, function.doc, function.args,
      function.returns⟩
  refine { formed with methods := fun entry member => ?_ }
  rcases Table.mem_insert member with rfl | old
  · exact method
  · exact formed.methods entry old

theorem wellFormed_propertiesBlock (formed : c.WellFormed cls outer) (spelled : SpelledOut run)
    (inside : r.cursor.tokens = run) {result : ClassDoc × Reader}
    (read : r.propertiesBlock c = .ok result) : result.1.WellFormed cls outer := by
  have behind := r.sees_blockHeader .ofProperty
  unfold propertiesBlock at read
  split at read
  · simp at read
  · next attrs r' header =>
    rw [header] at behind
    cases read
    exact wellFormed_addProperties formed (spells_blockHeader header)
      (wellFormed_entries .properties false spelled (behind.run.trans inside))

theorem wellFormed_methodsFrom {attrs : Table AttrValue} (formed : c.WellFormed cls outer)
    (vocabulary : Vocabulary.ofMethod.Spells attrs) (spelled : SpelledOut run)
    (inside : r.cursor.tokens = run) {result : ClassDoc × Reader}
    (read : r.methodsFrom attrs c = .ok result) : result.1.WellFormed cls outer := by
  have first (r : Reader) (inside : r.cursor.tokens = run) :
      (r.move Cursor.skipSpacing).cursor.tokens = run :=
    (Cursor.tokens_skipSpacing r.cursor).trans inside
  fun_induction methodsFrom attrs c r generalizing result with
  | case1 =>
    cases read
    exact formed
  | case2 =>
    cases read
    exact formed
  | case3 => simp at read
  | case4 c r start t here _ _ f r' method ih =>
    have behind := start.sees_function c.scope none
    rw [method] at behind
    have function := formed.scope ▸ wellFormed_function spelled (first r inside) method
    exact ih (wellFormed_addMethod formed vocabulary function) (behind.run.trans (first r inside)) read
  | case5 c r start t here _ _ _ ih =>
    exact ih formed ((Cursor.tokens_advance _).trans (first r inside)) read
  | case6 c r start t here _ _ _ ih =>
    exact ih formed ((Cursor.tokens_skipLine _).trans (first r inside)) read

theorem wellFormed_methodsBlock (formed : c.WellFormed cls outer) (spelled : SpelledOut run)
    (inside : r.cursor.tokens = run) {result : ClassDoc × Reader}
    (read : r.methodsBlock c = .ok result) : result.1.WellFormed cls outer := by
  have behind := r.sees_blockHeader .ofMethod
  unfold methodsBlock at read
  split at read
  · simp at read
  · next attrs r' header =>
    rw [header] at behind
    exact wellFormed_methodsFrom formed (spells_blockHeader header) spelled
      (behind.run.trans inside) read

/-- A block that is passed over leaves the class as it is. -/
theorem wellFormed_skippedBlock (formed : c.WellFormed cls outer) {v : Vocabulary} {block : BlockKind}
    {result : ClassDoc × Reader} (read : (r.skippedBlock v block).map (c, ·) = .ok result) :
    result.1.WellFormed cls outer := by
  rcases inner : r.skippedBlock v block with e | r'
  · simp [inner, Except.map] at read
  · rw [inner] at read
    cases read
    exact formed

theorem wellFormed_memberBlock {word : String} (formed : c.WellFormed cls outer)
    (spelled : SpelledOut run) (inside : r.cursor.tokens = run) {result : ClassDoc × Reader}
    (read : r.memberBlock word c = some (.ok result)) : result.1.WellFormed cls outer := by
  unfold memberBlock at read
  split at read
  · exact wellFormed_propertiesBlock formed spelled inside (Option.some.inj read)
  · split at read
    · exact wellFormed_methodsBlock formed spelled inside (Option.some.inj read)
    · split at read
      · exact wellFormed_skippedBlock formed (Option.some.inj read)
      · split at read
        · exact wellFormed_skippedBlock formed (Option.some.inj read)
        · simp at read

theorem wellFormed_classBody (formed : c.WellFormed cls outer) (spelled : SpelledOut run)
    (inside : r.cursor.tokens = run) {result : ClassDoc × Reader} (read : r.classBody c = .ok result) :
    result.1.WellFormed cls outer := by
  have first (r : Reader) (inside : r.cursor.tokens = run) :
      (r.move Cursor.skipSpacing).cursor.tokens = run :=
    (Cursor.tokens_skipSpacing r.cursor).trans inside
  fun_induction classBody c r generalizing result with
  | case1 =>
    cases read
    exact formed
  | case2 =>
    cases read
    exact formed
  | case3 c r start t here _ _ ih =>
    exact ih formed ((Cursor.tokens_advance _).trans (first r inside)) read
  | case4 => simp at read
  | case5 c r start t here _ _ c' r' opened ih =>
    split at opened
    · exact ih (wellFormed_memberBlock formed spelled (first r inside) opened)
        ((sees_memberBlock opened).run.trans (first r inside)) read
    · simp at opened
  | case6 c r start t here _ _ _ ih =>
    exact ih formed ((Cursor.tokens_skipLine _).trans (first r inside)) read

/-- A class that is read is well formed. -/
theorem wellFormed_classDeclaration {place : Nat → Location} (spelled : SpelledOut run)
    (inside : r.cursor.tokens = run) {result : ClassDoc × Reader}
    (read : r.classDeclaration place outer cls = .ok result) : result.1.WellFormed cls outer := by
  have start : (Sightings.classStart r).cursor.tokens = run := by
    simpa [Sightings.classStart, move] using inside
  have list := (Sightings.classStart r).sees_attributes .ofClass
  rw [Sightings.classStart] at start list
  unfold classDeclaration at read
  simp only at read
  split at read
  · simp at read
  · next attrs r' header =>
    rw [header] at list
    have within := (Cursor.tokens_skipWhitespace r'.cursor).trans (list.run.trans start)
    generalize r'.cursor.skipWhitespace = c at within read
    split at read
    · simp at read
    · next declared c' name =>
      have named : ((r'.withCursor c').checkName (some cls) c.line declared).cursor.tokens = run := by
        rw [checkName_eq_tell]
        exact (Cursor.tokens_dottedName? name).trans within
      generalize (r'.withCursor c').checkName (some cls) c.line declared = header at named read
      have bases := (reaches_superclasses header).run.trans named
      have formed : ClassDoc.WellFormed cls outer
          { name := cls, scope := outer, attrs := attrs, superclasses := header.superclasses.1
            doc := docAfter header.superclasses.2.cursor.finishLine.1
              header.superclasses.2.cursor.finishLine.2.commentRun.1
            location := place c.line } :=
        ⟨rfl, rfl, spells_attributes ‹_›, dotted_superclasses (named ▸ spelled),
          isSaid_docAfter _ _, by simp, by simp⟩
      refine wellFormed_classBody formed spelled ?_ read
      simpa using bases

end Reader

theorem isSaid_scriptOf (text name scope : String) : Docstring.IsSaid (scriptOf text name scope).doc := by
  simp only [scriptOf]
  apply Docstring.isSaid_ofComments

/-- Everything that a unit declares is well formed. -/
theorem parseUnit_wellFormed {location : Location} {text name scope : String} {e : Entity}
    (ok : (parseUnit location text name scope).result = .ok e) : e.WellFormed name scope := by
  have spelled : SpelledOut (tokenize (normalize (removeHeader text))) :=
    fun t member => admits_of_mem_tokenize member
  have start := tokens_readerOf text
  unfold parseUnit at ok
  simp only at ok
  split at ok
  · cases ok
    exact isSaid_scriptOf text name scope
  · rcases read : (readerOf text).function scope (some name) with f | ⟨f, r⟩
    · simp [read, Parsed.ofReader] at ok
    · rw [read] at ok
      cases ok
      exact Reader.wellFormed_function spelled start read
  · rcases read : (readerOf text).classDeclaration (placeOf location text) scope name with f | ⟨c, r⟩
    · simp [read, Parsed.ofReader] at ok
    · rw [read] at ok
      cases ok
      exact Reader.wellFormed_classDeclaration spelled start read

/-- A class with a property and with a method that reads it, which is known without its point. -/
theorem parseUnit_wellFormed_class :
    ∃ c : ClassDoc, c.properties.keys = ["p"] ∧ c.methods.keys = ["get_p"] ∧
      (Entity.cls c).WellFormed "C" "lab" := by
  let text := "classdef C\nproperties\n p\nend\nmethods\nfunction get.p(o)\nend\nend\nend\n"
  have members : ((parseUnit {} text "C" "lab").result.toOption.bind fun e => (Item.mk 0 e).class?).map
      (fun c => (c.properties.keys, c.methods.keys)) = some (["p"], ["get_p"]) := by
    decide +kernel
  rcases read : (parseUnit {} text "C" "lab").result with e | e
  · simp [read, Except.toOption] at members
  · have formed := parseUnit_wellFormed read
    rcases e with m | c | f | u | a <;> simp [read, Except.toOption, Item.class?] at members
    exact ⟨c, members.1, members.2, formed⟩

end MatlabOutline
