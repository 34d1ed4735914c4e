import MatlabOutline.Proofs.Reports.Sites

/-!
Functions and classes are read with the notes and the fault of their sightings. Main statements:
`Reader.sees_function`, `Reader.sees_classDeclaration`, and `Reader.location_classDeclaration` for
the place that a class is given.
-/

namespace MatlabOutline

namespace Sightings

/-- What the reader comes upon below a signature: a block, or nothing if no block comes. -/
theorem argumentBlocks_step (f : FunctionDoc) (r : Reader) :
    argumentBlocks f r =
      match (r.move (·.skip fun t => t.isSpacing || t.kind == .comment)).cursor.peek with
      | none => []
      | some t =>
        if t.isKeyword "arguments" then
          argumentsBlock (r.move (·.skip fun t => t.isSpacing || t.kind == .comment)) ++
            match (r.move (·.skip fun t => t.isSpacing || t.kind == .comment)).argumentsBlock f with
            | .error _ => []
            | .ok (f', r') => argumentBlocks f' r'
        else [] := by
  rw [argumentBlocks.eq_def]
  simp only
  split
  · next here => simp only [here]
  · next here =>
    simp only [here]
    split
    · split
      · next read => simp only [read]
      · next read => simp only [read]
    · rfl

theorem superclassesFrom_step (c : Cursor) :
    superclassesFrom c =
      match c.skipWhitespace.dottedName? with
      | none => [c.skipWhitespace.warns (.unexpectedToken c.skipWhitespace.found)]
      | some (_, c') =>
        match c'.skipWhitespace.take? (·.isOperator "&") with
        | some (_, c'') => superclassesFrom c''
        | none => [] := by
  rw [superclassesFrom.eq_def]
  simp only
  split
  · next read => simp only [read]
  · next read =>
    simp only [read]
    split
    · next mark => simp only [mark]
    · next mark => simp only [mark]

/-- What the reader comes upon in a `methods` block, by the token at which it stands. -/
theorem methodsFrom_step (attrs : Table AttrValue) (c : ClassDoc) (r : Reader) :
    methodsFrom attrs c r =
      match (r.move Cursor.skipSpacing).cursor.peek with
      | none => [(r.move Cursor.skipSpacing).cursor.warns (.unterminatedBlock .methods)]
      | some t =>
        if t.isKeyword "end" then []
        else if t.isKeyword "function" then
          function c.scope none (r.move Cursor.skipSpacing) ++
            match (r.move Cursor.skipSpacing).function c.scope none with
            | .error _ => []
            | .ok (f, r') => methodsFrom attrs (Reader.addMethod c attrs f) r'
        else if t.kind == .comment then
          methodsFrom attrs c ((r.move Cursor.skipSpacing).move Cursor.advance)
        else
          let seen : Sighting := ⟨(r.move Cursor.skipSpacing).cursor, .skipped⟩
          seen :: methodsFrom attrs c (((r.move Cursor.skipSpacing).tell [seen]).move Cursor.skipLine) := by
  rw [methodsFrom.eq_def]
  simp only
  split
  · next here => simp only [here]
  · next here =>
    simp only [here]
    split
    · rfl
    · split
      · split
        · next read => simp only [read]
        · next read => simp only [read]
      · rfl

/-- What the reader comes upon in a class, by the token at which it stands. -/
theorem classBody_step (c : ClassDoc) (r : Reader) :
    classBody c r =
      match (r.move Cursor.skipSpacing).cursor.peek with
      | none => [(r.move Cursor.skipSpacing).cursor.warns (.unterminatedClass c.name)]
      | some t =>
        if t.isKeyword "end" then []
        else if t.kind == .comment then classBody c ((r.move Cursor.skipSpacing).move Cursor.advance)
        else
          match if t.kind == .keyword then (r.move Cursor.skipSpacing).memberBlock t.text c else none with
          | some (.error _) => memberBlock t.text c (r.move Cursor.skipSpacing)
          | some (.ok (c', r')) => memberBlock t.text c (r.move Cursor.skipSpacing) ++ classBody c' r'
          | none =>
            let seen := (r.move Cursor.skipSpacing).cursor.warns (.unexpectedToken t.describe)
            seen :: classBody c (((r.move Cursor.skipSpacing).tell [seen]).move Cursor.skipLine) := by
  rw [classBody.eq_def]
  simp only
  split
  · next here => simp only [here]
  · next here =>
    simp only [here]
    split
    · rfl
    · split
      · rfl
      · split
        · next read => simp only [read]
        · next read => simp only [read]
        · next read => simp only [read]

end Sightings

namespace Reader

variable {r r' : Reader}

theorem sees_argumentsBlock (f : FunctionDoc) (r : Reader) :
    r.Sees (Sightings.argumentsBlock r) (r.argumentsBlock f) := by
  have list := r.sees_header .ofArguments
  unfold argumentsBlock Sightings.argumentsBlock
  rcases read : ((r.move Cursor.advance).move Cursor.skipWhitespace).attributes .ofArguments with
    e | ⟨attrs, r'⟩
  · rw [read] at list
    simp only [List.append_nil]
    exact list
  · rw [read] at list
    have line : r'.Reaches [] (r'.withCursor r'.cursor.finishLine.2) :=
      reaches_withCursor (Cursor.tokens_finishLine r'.cursor)
    have block := Reaches.append list
      (line.append (reaches_entries .arguments true (r'.withCursor r'.cursor.finishLine.2)))
    simp only
    split
    · exact block
    · exact block

theorem sees_argumentBlocks (f : FunctionDoc) (r : Reader) :
    r.Sees (Sightings.argumentBlocks f r) (r.argumentBlocks f) := by
  have first (r : Reader) :
      r.Reaches [] (r.move (·.skip fun t => t.isSpacing || t.kind == .comment)) :=
    reaches_move fun c => c.tokens_skip _
  fun_induction argumentBlocks f r with
  | case1 f r start nothing =>
    rw [Sightings.argumentBlocks_step, nothing]
    exact first r
  | case2 f r start t here opens e read =>
    rw [Sightings.argumentBlocks_step, here]
    have block := start.sees_argumentsBlock f
    rw [read] at block
    simp only [opens, if_true]
    rw [read, List.append_nil]
    exact (first r).fails block
  | case3 f r start t here opens f' r' read ih =>
    rw [Sightings.argumentBlocks_step, here]
    have block := start.sees_argumentsBlock f
    rw [read] at block
    simp only [opens, if_true]
    rw [read]
    exact (first r).sees (Reaches.sees block ih)
  | case4 f r start t here other =>
    rw [Sightings.argumentBlocks_step, here]
    simp only [other]
    exact first r

theorem reaches_shortBody (f : FunctionDoc) (r : Reader) : r.Reaches [] (shortBody f r).2 := by
  simp only [shortBody]
  split
  · exact reaches_withCursor (by simp)
  · exact reaches_withCursor (by simp)

theorem sees_longBody (f : FunctionDoc) (trailing : Option Token) (r : Reader) :
    r.Sees (Sightings.argumentBlocks { f with doc := docAfter trailing r.cursor.commentRun.1 }
      (r.withCursor r.cursor.commentRun.2)) (longBody f trailing r) := by
  have comments : r.Reaches [] (r.withCursor r.cursor.commentRun.2) :=
    reaches_withCursor (Cursor.tokens_commentRun r.cursor)
  have blocks := sees_argumentBlocks { f with doc := docAfter trailing r.cursor.commentRun.1 }
    (r.withCursor r.cursor.commentRun.2)
  simp only [longBody]
  split
  · next e read =>
    rw [read] at blocks
    exact comments.fails blocks
  · next f' r' read =>
    rw [read] at blocks
    have body : r'.Reaches [] (r'.withCursor r'.cursor.skipBlock.2) :=
      reaches_withCursor (Cursor.tokens_skipBlock r'.cursor)
    have whole := comments.append (Reaches.append blocks body)
    rwa [List.append_nil] at whole

/-- A name is checked where it is declared. -/
theorem checkName_eq_tell (r : Reader) (expected : Option String) (c : Cursor) (declared : String) :
    r.checkName expected c.line declared = r.tell (Sightings.name expected c declared) := by
  rcases expected with _ | name
  · rfl
  · by_cases same : declared = name
    · simp [checkName, Sightings.name, same]
    · simp [checkName, Sightings.name, same, tell, Cursor.warns, Sighting.note?, warn, note]

theorem reaches_name {c : Cursor} (inside : c.tokens = r.cursor.tokens) (expected : Option String)
    {declared : String} (declares : c.Declares declared) :
    r.Reaches (Sightings.name expected c declared) (r.tell (Sightings.name expected c declared)) := by
  rcases expected with _ | name
  · exact Reaches.refl r
  · by_cases same : declared = name
    · simpa only [Sightings.name, if_pos same, tell_nil] using Reaches.refl r
    · simpa only [Sightings.name, if_neg same] using
        reaches_tell (s := c.warns (.nameMismatch declared name)) rfl ⟨inside, declares⟩

theorem sees_function (scope : String) (expected : Option String) (r : Reader) :
    r.Sees (Sightings.function scope expected r) (r.function scope expected) := by
  have start : (r.cursor.skipIf (·.isKeyword "function")).tokens = r.cursor.tokens :=
    Cursor.tokens_skipIf _ _
  have sign := (r.cursor.skipIf (·.isKeyword "function")).ends_signature []
  unfold function Sightings.function
  simp only
  generalize r.cursor.skipIf (·.isKeyword "function") = opening at start sign ⊢
  rcases read : opening.signature [] with e | ⟨⟨outputs, name⟩, c⟩
  · rw [read, start] at sign
    exact fails_of_ends sign
  · obtain ⟨here, kind⟩ := Cursor.signature_name read
    rw [read, start] at sign
    have site : opening.signatureStop.tokens = c.tokens :=
      (opening.tokens_skip _).trans (start.trans sign.symm)
    have named := (reaches_withCursor (r := r) sign).append
      (reaches_name (r := r.withCursor c) site expected (.inl ⟨name, here, kind, rfl⟩))
    have list := c.ends_parameters
    have checked : (r.withCursor c).checkName expected name.line name.text =
        (r.withCursor c).tell (Sightings.name expected opening.signatureStop name.text) :=
      Cursor.line_of_peek here ▸ checkName_eq_tell _ _ _ _
    simp only [checked]
    generalize Sightings.name expected opening.signatureStop name.text = told at named ⊢
    rcases listed : c.parameters with e | ⟨params, c'⟩
    · rw [listed] at list
      exact named.fails (fails_of_ends list)
    · rw [listed] at list
      have line : ((r.withCursor c).tell told).Reaches []
          (((r.withCursor c).tell told).withCursor c'.finishLine.2) :=
        reaches_withCursor ((Cursor.tokens_finishLine c').trans list)
      simp only
      split
      · exact named.append (line.append (reaches_shortBody _ _))
      · exact named.sees (line.sees (sees_longBody _ _ _))

theorem reaches_superclassesFrom (names : List String) (r : Reader) :
    r.Reaches (Sightings.superclassesFrom r.cursor) (r.superclassesFrom names).2 := by
  have first (r : Reader) : r.cursor.skipWhitespace.tokens = r.cursor.tokens :=
    Cursor.tokens_skipWhitespace r.cursor
  fun_induction superclassesFrom names r with
  | case1 names r c missing =>
    rw [Sightings.superclassesFrom_step, missing]
    exact (reaches_withCursor (first r)).append (reaches_warn rfl rfl)
  | case2 names r c name c' read t c'' mark ih =>
    have behind := (Cursor.tokens_dottedName? read).trans (first r)
    rw [Sightings.superclassesFrom_step, read]
    simp only [mark]
    have further : r.Reaches [] (r.withCursor c'') :=
      reaches_withCursor ((Cursor.tokens_take? mark).trans (c'.tokens_skipWhitespace.trans behind))
    exact further.append ih
  | case3 names r c name c' read last =>
    have behind := (Cursor.tokens_dottedName? read).trans (first r)
    rw [Sightings.superclassesFrom_step, read]
    simp only [last]
    exact reaches_withCursor (c'.tokens_skipWhitespace.trans behind)

theorem reaches_superclasses (r : Reader) :
    r.Reaches (Sightings.superclasses r.cursor) r.superclasses.2 := by
  unfold superclasses Sightings.superclasses
  rcases mark : r.cursor.skipWhitespace.take? (·.isOperator "<") with _ | ⟨t, c⟩
  · exact reaches_move Cursor.tokens_skipWhitespace
  · have behind : r.Reaches [] (r.withCursor c) :=
      reaches_withCursor ((Cursor.tokens_take? mark).trans (Cursor.tokens_skipWhitespace _))
    exact behind.append (reaches_superclassesFrom [] (r.withCursor c))

theorem sees_blockHeader (v : Vocabulary) (r : Reader) :
    r.Sees (Sightings.header v r) (r.blockHeader v) := by
  have list := r.sees_header v
  unfold blockHeader
  split
  · next e read => rwa [read] at list
  · next attrs r' read =>
    rw [read] at list
    have line : r'.Reaches [] (r'.withCursor r'.cursor.finishLine.2) :=
      reaches_withCursor (Cursor.tokens_finishLine r'.cursor)
    exact List.append_nil (Sightings.header v r) ▸ Reaches.append list line

theorem sees_propertiesBlock (c : ClassDoc) (r : Reader) :
    r.Sees (Sightings.propertiesBlock r) (r.propertiesBlock c) := by
  have header := r.sees_blockHeader .ofProperty
  unfold propertiesBlock Sightings.propertiesBlock
  rcases read : r.blockHeader .ofProperty with e | ⟨attrs, r'⟩
  · rw [read] at header
    simp only [List.append_nil]
    exact header
  · rw [read] at header
    exact Reaches.append header (reaches_entries .properties false r')

theorem sees_methodsFrom (attrs : Table AttrValue) (c : ClassDoc) (r : Reader) :
    r.Sees (Sightings.methodsFrom attrs c r) (r.methodsFrom attrs c) := by
  have first (r : Reader) : r.Reaches [] (r.move Cursor.skipSpacing) :=
    reaches_move Cursor.tokens_skipSpacing
  fun_induction methodsFrom attrs c r with
  | case1 c r start nothing =>
    rw [Sightings.methodsFrom_step, nothing]
    exact (first r).append (reaches_warn rfl (Cursor.atEnd_of_peek nothing))
  | case2 c r start t here ends =>
    rw [Sightings.methodsFrom_step, here]
    simp only [ends, if_true]
    exact (first r).append (reaches_move Cursor.tokens_advance)
  | case3 c r start t here ends opens e read =>
    rw [Sightings.methodsFrom_step, here]
    have method := start.sees_function c.scope none
    rw [read] at method
    simp only [ends, opens, if_true]
    rw [read, List.append_nil]
    exact (first r).fails method
  | case4 c r start t here ends opens f r' read ih =>
    rw [Sightings.methodsFrom_step, here]
    have method := start.sees_function c.scope none
    rw [read] at method
    simp only [ends, opens, if_true]
    rw [read]
    exact (first r).sees (Reaches.sees method ih)
  | case5 c r start t here ends opens comment ih =>
    rw [Sightings.methodsFrom_step, here]
    simp only [ends, opens, comment, if_true]
    exact (first r).sees ((reaches_move Cursor.tokens_advance).sees ih)
  | case6 c r start t here ends opens comment ih =>
    rw [Sightings.methodsFrom_step, here]
    simp only [ends, opens, comment]
    rw [← tell_skipped here] at ih ⊢
    have told : start.Reaches [⟨start.cursor, .skipped⟩] (start.tell [⟨start.cursor, .skipped⟩]) :=
      reaches_tell rfl ⟨rfl, by simp [Matter.Concerns, Cursor.not_atEnd_of_peek here]⟩
    exact (first r).sees (told.sees ((reaches_move Cursor.tokens_skipLine).sees ih))

theorem sees_methodsBlock (c : ClassDoc) (r : Reader) :
    r.Sees (Sightings.methodsBlock c r) (r.methodsBlock c) := by
  have header := r.sees_blockHeader .ofMethod
  unfold methodsBlock Sightings.methodsBlock
  rcases read : r.blockHeader .ofMethod with e | ⟨attrs, r'⟩
  · rw [read] at header
    simp only [List.append_nil]
    exact header
  · rw [read] at header
    exact Reaches.sees header (sees_methodsFrom attrs c r')

theorem sees_skippedBlock (v : Vocabulary) (block : BlockKind) (c : ClassDoc) (r : Reader) :
    r.Sees (Sightings.skippedBlock v block r) ((r.skippedBlock v block).map (c, ·)) := by
  have list := r.sees_header v
  unfold skippedBlock Sightings.skippedBlock
  rcases read : ((r.move Cursor.advance).move Cursor.skipWhitespace).attributes v with e | ⟨attrs, r'⟩
  · rw [read] at list
    simp only [List.append_nil]
    exact list
  · rw [read] at list
    have body : r'.Reaches [] (r'.withCursor r'.cursor.skipBlock.2) :=
      reaches_withCursor (Cursor.tokens_skipBlock r'.cursor)
    rcases closed : r'.cursor.skipBlock.1 with _ | _
    · have ends : (Warning.unterminatedBlock block).Concerns r'.cursor.skipBlock.2 :=
        Cursor.atEnd_skipBlock closed
      have told := body.append (reaches_warn rfl ends)
      simpa [Except.map, closed, Sees] using Reaches.append list told
    · simpa [Except.map, closed, Sees] using Reaches.append list body

theorem sees_memberBlock {word : String} {c : ClassDoc} {result : Except Failure (ClassDoc × Reader)}
    (opened : r.memberBlock word c = some result) : r.Sees (Sightings.memberBlock word c r) result := by
  unfold memberBlock at opened
  unfold Sightings.memberBlock
  by_cases properties : word = "properties"
  · rw [if_pos properties] at opened ⊢
    exact Option.some.inj opened ▸ sees_propertiesBlock c r
  · rw [if_neg properties] at opened ⊢
    by_cases methods : word = "methods"
    · rw [if_pos methods] at opened ⊢
      exact Option.some.inj opened ▸ sees_methodsBlock c r
    · rw [if_neg methods] at opened ⊢
      by_cases events : word = "events"
      · rw [if_pos events] at opened ⊢
        exact Option.some.inj opened ▸ sees_skippedBlock .ofEvents .events c r
      · rw [if_neg events] at opened ⊢
        by_cases enumeration : word = "enumeration"
        · rw [if_pos enumeration] at opened
          exact Option.some.inj opened ▸ sees_skippedBlock .ofEnumeration .enumeration c r
        · simp [enumeration] at opened

theorem sees_classBody (c : ClassDoc) (r : Reader) :
    r.Sees (Sightings.classBody c r) (r.classBody c) := by
  have first (r : Reader) : r.Reaches [] (r.move Cursor.skipSpacing) :=
    reaches_move Cursor.tokens_skipSpacing
  fun_induction classBody c r with
  | case1 c r start nothing =>
    rw [Sightings.classBody_step, nothing]
    exact (first r).append (reaches_warn rfl (Cursor.atEnd_of_peek nothing))
  | case2 c r start t here ends =>
    rw [Sightings.classBody_step, here]
    simp only [ends, if_true]
    exact (first r).append (reaches_move Cursor.tokens_advance)
  | case3 c r start t here ends comment ih =>
    rw [Sightings.classBody_step, here]
    simp only [ends, comment, if_true]
    exact (first r).sees ((reaches_move Cursor.tokens_advance).sees ih)
  | case4 c r start t here ends comment e read =>
    rw [Sightings.classBody_step, here]
    simp only [ends, comment]
    rw [dite_eq_ite] at read
    rw [read]
    split at read
    · exact (first r).fails (sees_memberBlock read)
    · simp at read
  | case5 c r start t here ends comment c' r' read ih =>
    rw [Sightings.classBody_step, here]
    simp only [ends, comment]
    rw [dite_eq_ite] at read
    rw [read]
    split at read
    · exact (first r).sees (Reaches.sees (sees_memberBlock read) ih)
    · simp at read
  | case6 c r start t here ends comment other ih =>
    rw [Sightings.classBody_step, here]
    simp only [ends, comment]
    rw [dite_eq_ite] at other
    rw [other]
    rw [← tell_warns here] at ih ⊢
    have told : start.Reaches [start.cursor.warns (.unexpectedToken t.describe)]
        (start.tell [start.cursor.warns (.unexpectedToken t.describe)]) :=
      reaches_tell rfl ⟨rfl, Cursor.found_of_peek here⟩
    exact (first r).sees (told.sees ((reaches_move Cursor.tokens_skipLine).sees ih))

/-- Members do not move a class. -/
theorem location_addProperties (c : ClassDoc) (attrs : Table AttrValue) (entries : List Entry) :
    (addProperties c attrs entries).location = c.location := by
  unfold addProperties
  induction entries generalizing c with
  | nil => rfl
  | cons e entries ih => exact (ih _).trans rfl

theorem location_methodsFrom {attrs : Table AttrValue} {c : ClassDoc} {r : Reader}
    {result : ClassDoc × Reader} (read : r.methodsFrom attrs c = .ok result) :
    result.1.location = c.location := by
  fun_induction methodsFrom attrs c r generalizing result
  case case3 => simp at read
  case case4 ih => exact (ih read).trans rfl
  case case5 ih => exact ih read
  case case6 ih => exact ih read
  all_goals
    cases read
    rfl

theorem location_memberBlock {word : String} {c : ClassDoc} {result : ClassDoc × Reader}
    (read : r.memberBlock word c = some (.ok result)) : result.1.location = c.location := by
  have skipped {v : Vocabulary} {block : BlockKind}
      (read : (r.skippedBlock v block).map (c, ·) = .ok result) : result.1.location = c.location := by
    rcases inner : r.skippedBlock v block with e | r'
    · simp [inner, Except.map] at read
    · rw [inner] at read
      cases read
      rfl
  unfold memberBlock at read
  split at read
  · have block := Option.some.inj read
    unfold propertiesBlock at block
    split at block
    · simp at block
    · cases block
      exact location_addProperties _ _ _
  · split at read
    · have block := Option.some.inj read
      unfold methodsBlock at block
      split at block
      · simp at block
      · exact location_methodsFrom block
    · split at read
      · exact skipped (Option.some.inj read)
      · split at read
        · exact skipped (Option.some.inj read)
        · simp at read

theorem location_classBody {c : ClassDoc} {r : Reader} {result : ClassDoc × Reader}
    (read : r.classBody c = .ok result) : result.1.location = c.location := by
  fun_induction classBody c r generalizing result
  case case3 ih => exact ih read
  case case4 => simp at read
  case case5 opened ih =>
    split at opened
    · exact (ih read).trans (location_memberBlock opened)
    · simp at opened
  case case6 ih => exact ih read
  all_goals
    cases read
    rfl

theorem sees_classDeclaration (place : Nat → Location) (scope expected : String) (r : Reader) :
    r.Sees (Sightings.classDeclaration place scope expected r)
      (r.classDeclaration place scope expected) := by
  have start : r.Reaches [] (Sightings.classStart r) := reaches_move fun c => by simp
  have list := (Sightings.classStart r).sees_attributes .ofClass
  unfold classDeclaration Sightings.classDeclaration
  rw [Sightings.classStart] at start list ⊢
  simp only
  rcases read : (r.move fun c => (c.skipIf (·.isKeyword "classdef")).skipWhitespace).attributes .ofClass with
    f | ⟨attrs, r'⟩
  · rw [read] at list
    simp only [List.append_nil]
    exact start.fails list
  · rw [read] at list
    have inside := r'.cursor.tokens_skipWhitespace
    simp only
    generalize r'.cursor.skipWhitespace = c at inside ⊢
    rcases name : c.dottedName? with _ | ⟨declared, c'⟩
    · exact start.fails (Reaches.fails list (fails_fault inside name))
    · have behind := (Cursor.tokens_dottedName? name).trans inside
      have site : c.tokens = c'.tokens := (Cursor.tokens_dottedName? name).symm
      have named := (reaches_withCursor behind).append
        (reaches_name (r := r'.withCursor c') site (some expected) (.inr ⟨c', name⟩))
      simp only [checkName_eq_tell]
      generalize Sightings.name (some expected) c declared = told at named ⊢
      have bases := reaches_superclasses ((r'.withCursor c').tell told)
      have line (r : Reader) : r.Reaches [] (r.withCursor r.cursor.finishLine.2.commentRun.2) :=
        reaches_withCursor (by simp)
      exact start.sees (Reaches.sees list (named.sees (bases.sees ((line _).sees (sees_classBody _ _)))))

/-- A class has the place of its name. -/
theorem location_classDeclaration {place : Nat → Location} {scope expected : String} {doc : ClassDoc}
    (ok : r.classDeclaration place scope expected = .ok (doc, r')) :
    ∃ c declared behind, Sightings.className? r = some c ∧ c.tokens = r.cursor.tokens ∧
      c.dottedName? = some (declared, behind) ∧ doc.location = place c.line := by
  have list := (Sightings.classStart r).sees_attributes .ofClass
  unfold classDeclaration at ok
  simp only at ok
  split at ok
  · simp at ok
  · next attrs r₁ read =>
    rw [Sightings.classStart, read] at list
    split at ok
    · simp at ok
    · next declared behind name =>
      refine ⟨r₁.cursor.skipWhitespace, declared, behind, ?_, ?_, name, location_classBody ok⟩
      · rw [Sightings.className?, Sightings.classStart, read]
      · exact (Cursor.tokens_skipWhitespace _).trans (list.run.trans (by simp [move]))

end Reader

end MatlabOutline
