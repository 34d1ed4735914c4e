import MatlabOutline.Proofs.LineEndings.Functions

/-!
Class declarations are the same however lines end (`Reader.Recoded.classDeclaration`).
-/

namespace MatlabOutline

namespace Reader

variable {r s : Reader}

/-- A list of superclasses, by its first name. -/
theorem superclassesFrom_eq (names : List String) (r : Reader) :
    r.superclassesFrom names =
      let c := r.cursor.skipWhitespace
      match c.dottedName? with
      | none => (names, (r.withCursor c).warn c.line (.unexpectedToken c.found))
      | some (name, c') =>
        match c'.skipWhitespace.take? (·.isOperator "&") with
        | some (_, c'') => superclassesFrom (names ++ [name]) (r.withCursor c'')
        | none => (names ++ [name], r.withCursor c'.skipWhitespace) := by
  rw [superclassesFrom.eq_def]
  simp only
  split
  · simp only [*]
  next read =>
  simp only [read]
  split <;> simp only [*]

theorem Recoded.superclassesFrom (recoded : r.Recoded s) (names : List String) :
    Outcome (.ok (r.superclassesFrom names)) (.ok (s.superclassesFrom names)) := by
  have taken (c : Cursor) := Cursor.take?_recode (p := (·.isOperator "&")) (by simp) c
  fun_induction Reader.superclassesFrom names r generalizing s
  case case1 names r c none =>
    rw [superclassesFrom_eq]
    simp only [recoded.cursor, Cursor.skipWhitespace_recode, Cursor.dottedName?_recode, none, c, Option.map_none,
      Cursor.line_recode]
    exact .ok _ ((recoded.withCursor c).warn _ (.token c.found_recode))
  case case2 names r c name c' read t c'' joined ih =>
    rw [superclassesFrom_eq names s]
    simp only [recoded.cursor, Cursor.skipWhitespace_recode, Cursor.dottedName?_recode, read, c, Option.map_some,
      taken, joined]
    exact ih (recoded.withCursor c'')
  case case3 names r c name c' read last =>
    rw [superclassesFrom_eq]
    simp only [recoded.cursor, Cursor.skipWhitespace_recode, Cursor.dottedName?_recode, read, c, Option.map_some,
      taken, last, Option.map_none]
    exact .ok _ (recoded.withCursor _)

theorem Recoded.superclasses (recoded : r.Recoded s) :
    Outcome (.ok r.superclasses) (.ok s.superclasses) := by
  rw [Reader.superclasses, Reader.superclasses, recoded.cursor, Cursor.skipWhitespace_recode,
    Cursor.take?_recode (by simp)]
  rcases r.cursor.skipWhitespace.take? _ with _ | ⟨t, c⟩
  · exact .ok _ (recoded.move Cursor.skipWhitespace_recode)
  · exact (recoded.withCursor c).superclassesFrom []

theorem Recoded.blockHeader (recoded : r.Recoded s) (v : Vocabulary) :
    Outcome (r.blockHeader v) (s.blockHeader v) := by
  have attrs := ((recoded.move Cursor.advance_recode).move Cursor.skipWhitespace_recode).attributes v
  rw [Reader.blockHeader, Reader.blockHeader]
  generalize ((r.move Cursor.advance).move Cursor.skipWhitespace).attributes v = here at attrs ⊢
  generalize ((s.move Cursor.advance).move Cursor.skipWhitespace).attributes v = there at attrs ⊢
  cases attrs with
  | error alike notes => exact .error alike notes
  | @ok attrs r' s' recoded' =>
    simp only [recoded'.cursor, Cursor.finishLine_recode]
    exact .ok _ (recoded'.withCursor _)

@[simp] theorem addProperties_recode (c : ClassDoc) (attrs : Table AttrValue) (entries : List Entry) :
    addProperties c attrs (entries.map Entry.recode) = addProperties c attrs entries := by
  simp [addProperties, List.foldl_map, Entry.recode, propertyOf]

theorem Recoded.propertiesBlock (recoded : r.Recoded s) (c : ClassDoc) :
    Outcome (r.propertiesBlock c) (s.propertiesBlock c) := by
  have header := recoded.blockHeader .ofProperty
  rw [Reader.propertiesBlock, Reader.propertiesBlock]
  generalize r.blockHeader .ofProperty = here at header ⊢
  generalize s.blockHeader .ofProperty = there at header ⊢
  cases header with
  | error alike notes => exact .error alike notes
  | ok attrs recoded' =>
    have read := recoded'.entries .properties false
    simp only [read.1, addProperties_recode]
    exact .ok _ read.2

/-- A `methods` block, by the token at which the reader stands. -/
theorem methodsFrom_eq (attrs : Table AttrValue) (c : ClassDoc) (r : Reader) :
    r.methodsFrom attrs c =
      let start := r.move Cursor.skipSpacing
      match start.cursor.peek with
      | none => .ok (c, start.warn start.cursor.line (.unterminatedBlock .methods))
      | some t =>
        if t.isKeyword "end" then .ok (c, start.move Cursor.advance)
        else if t.isKeyword "function" then
          match start.function c.scope none with
          | .error e => .error e
          | .ok (f, r') => methodsFrom attrs (addMethod c attrs f) r'
        else if t.kind == .comment then methodsFrom attrs c (start.move Cursor.advance)
        else methodsFrom attrs c ((start.note (.skipped t.line t.describe)).move Cursor.skipLine) := by
  rw [methodsFrom.eq_def]
  simp only
  split
  · simp only [*]
  next here =>
  simp only [here]
  split
  · rfl
  split
  · split <;> simp only [*]
  · rfl

/-- A block has the same methods. -/
theorem Recoded.methodsFrom (recoded : r.Recoded s) (attrs : Table AttrValue) (c : ClassDoc) :
    Outcome (r.methodsFrom attrs c) (s.methodsFrom attrs c) := by
  have begin {r s : Reader} (recoded : r.Recoded s) := recoded.move Cursor.skipSpacing_recode
  fun_induction Reader.methodsFrom attrs c r generalizing s
  case case1 c r start none =>
    rw [methodsFrom_eq]
    simp only [(begin recoded).peek, none, start, Option.map_none]
    rw [(begin recoded).cursor, Cursor.line_recode]
    exact .ok _ ((begin recoded).warn _ (.same _))
  case case2 c r start t here ends =>
    rw [methodsFrom_eq]
    simp only [(begin recoded).peek, here, start, Option.map_some, Token.isKeyword_recode, ends, if_true]
    exact .ok _ ((begin recoded).move Cursor.advance_recode)
  case case3 c r start t here ends word e failed =>
    obtain ⟨e', there, outcome⟩ := (failed ▸ (begin recoded).function c.scope none).of_error
    rw [methodsFrom_eq]
    simp only [(begin recoded).peek, here, start, Option.map_some, Token.isKeyword_recode, ends, word,
      Bool.false_eq_true, if_false, if_true, there]
    exact outcome
  case case4 c r start t here ends word f r' read ih =>
    obtain ⟨s', there, recoded'⟩ := (read ▸ (begin recoded).function c.scope none).of_ok
    rw [methodsFrom_eq attrs c s]
    simp only [(begin recoded).peek, here, start, Option.map_some, Token.isKeyword_recode, ends, word,
      Bool.false_eq_true, if_false, if_true, there]
    exact ih recoded'
  case case5 c r start t here ends word remark ih =>
    rw [methodsFrom_eq attrs c s]
    simp only [(begin recoded).peek, here, start, Option.map_some, Token.isKeyword_recode, ends, word,
      Token.kind_recode, remark, Bool.false_eq_true, if_false, if_true]
    exact ih ((begin recoded).move Cursor.advance_recode)
  case case6 c r start t here ends word remark ih =>
    rw [methodsFrom_eq attrs c s]
    simp only [(begin recoded).peek, here, start, Option.map_some, Token.isKeyword_recode, ends, word,
      Token.kind_recode, remark, Bool.false_eq_true, if_false, Token.line_recode]
    have noted := (begin recoded).note (.skipped t.line t.unix_describe_recode.symm)
    exact ih (noted.move Cursor.skipLine_recode)

theorem Recoded.methodsBlock (recoded : r.Recoded s) (c : ClassDoc) :
    Outcome (r.methodsBlock c) (s.methodsBlock c) := by
  have header := recoded.blockHeader .ofMethod
  rw [Reader.methodsBlock, Reader.methodsBlock]
  generalize r.blockHeader .ofMethod = here at header ⊢
  generalize s.blockHeader .ofMethod = there at header ⊢
  cases header with
  | error alike notes => exact .error alike notes
  | ok attrs recoded' => exact recoded'.methodsFrom attrs c

theorem Recoded.skippedBlock (recoded : r.Recoded s) (v : Vocabulary) (block : BlockKind) (c : ClassDoc) :
    Outcome ((r.skippedBlock v block).map (c, ·)) ((s.skippedBlock v block).map (c, ·)) := by
  have attrs := ((recoded.move Cursor.advance_recode).move Cursor.skipWhitespace_recode).attributes v
  rw [Reader.skippedBlock, Reader.skippedBlock]
  generalize ((r.move Cursor.advance).move Cursor.skipWhitespace).attributes v = here at attrs ⊢
  generalize ((s.move Cursor.advance).move Cursor.skipWhitespace).attributes v = there at attrs ⊢
  cases attrs with
  | error alike notes => exact .error alike notes
  | @ok attrs r' s' recoded' =>
    have behind := recoded'.withCursor r'.cursor.skipBlock.2
    simp only [recoded'.cursor, Cursor.skipBlock_recode, Cursor.line_recode]
    split
    · exact .ok _ behind
    · exact .ok _ (behind.warn _ (.same _))

/-- The same word opens the same block. -/
theorem Recoded.memberBlock (recoded : r.Recoded s) (word : String) (c : ClassDoc) :
    Option.Rel Outcome (r.memberBlock word c) (s.memberBlock word c) := by
  rw [Reader.memberBlock, Reader.memberBlock]
  split
  · exact .some (recoded.propertiesBlock c)
  split
  · exact .some (recoded.methodsBlock c)
  split
  · exact .some (recoded.skippedBlock .ofEvents .events c)
  split
  · exact .some (recoded.skippedBlock .ofEnumeration .enumeration c)
  · exact .none

/-- The block that a token opens, if it is a keyword. -/
def memberAt (t : Token) (c : ClassDoc) (r : Reader) : Option (Except Failure (ClassDoc × Reader)) :=
  if t.kind == .keyword then r.memberBlock t.text c else none

theorem Recoded.memberAt (recoded : r.Recoded s) (t : Token) (c : ClassDoc) :
    Option.Rel Outcome (r.memberAt t c) (s.memberAt t.recode c) := by
  rw [Reader.memberAt, Reader.memberAt, Token.kind_recode]
  split
  · next word =>
    have kind := beq_iff_eq.mp word
    rw [Token.recode_of_kind (by simp [kind]) (by simp [kind])]
    exact recoded.memberBlock t.text c
  · exact .none

/-- A class body, by the token at which the reader stands. -/
theorem classBody_eq (c : ClassDoc) (r : Reader) :
    r.classBody c =
      let start := r.move Cursor.skipSpacing
      match start.cursor.peek with
      | none => .ok (c, start.warn start.cursor.line (.unterminatedClass c.name))
      | some t =>
        if t.isKeyword "end" then .ok (c, start.move Cursor.advance)
        else if t.kind == .comment then classBody c (start.move Cursor.advance)
        else
          match start.memberAt t c with
          | some (.error e) => .error e
          | some (.ok (c', r')) => classBody c' r'
          | none =>
            classBody c ((start.warn t.line (.unexpectedToken t.describe)).move Cursor.skipLine) := by
  rw [classBody.eq_def]
  simp only [memberAt]
  split
  · simp only [*]
  next here =>
  simp only [here]
  split
  · rfl
  split
  · rfl
  split <;> simp only [*]

/-- The reader of the recoded text is at the recoded token, and reads the member that it begins. -/
theorem Recoded.classBody_member (recoded : r.Recoded s) (c : ClassDoc) {t : Token}
    (here : (r.move Cursor.skipSpacing).cursor.peek = some t) (ends : ¬t.isKeyword "end" = true)
    (remark : ¬(t.kind == .comment) = true) :
    s.classBody c =
      match (s.move Cursor.skipSpacing).memberAt t.recode c with
      | some (.error e) => .error e
      | some (.ok (c', r')) => Reader.classBody c' r'
      | none =>
        Reader.classBody c (((s.move Cursor.skipSpacing).warn t.line (.unexpectedToken t.recode.describe)).move
          Cursor.skipLine) := by
  have start : (s.move Cursor.skipSpacing).cursor.peek = some t.recode := by
    rw [(recoded.move Cursor.skipSpacing_recode).peek, here, Option.map_some]
  rw [classBody_eq]
  simp only [start, Token.isKeyword_recode, ends, Token.kind_recode, remark, if_false, Token.line_recode,
    Bool.false_eq_true]

/-- A class body has the same members. -/
theorem Recoded.classBody (recoded : r.Recoded s) (c : ClassDoc) :
    Outcome (r.classBody c) (s.classBody c) := by
  have begin {r s : Reader} (recoded : r.Recoded s) := recoded.move Cursor.skipSpacing_recode
  fun_induction Reader.classBody c r generalizing s
  case case1 c r start none =>
    rw [classBody_eq]
    simp only [(begin recoded).peek, none, start, Option.map_none]
    rw [(begin recoded).cursor, Cursor.line_recode]
    exact .ok _ ((begin recoded).warn _ (.same _))
  case case2 c r start t here ends =>
    rw [classBody_eq]
    simp only [(begin recoded).peek, here, start, Option.map_some, Token.isKeyword_recode, ends, if_true]
    exact .ok _ ((begin recoded).move Cursor.advance_recode)
  case case3 c r start t here ends remark ih =>
    rw [classBody_eq c s]
    simp only [(begin recoded).peek, here, start, Option.map_some, Token.isKeyword_recode, ends,
      Token.kind_recode, remark, Bool.false_eq_true, if_false, if_true]
    exact ih ((begin recoded).move Cursor.advance_recode)
  case case4 c r start t here ends remark e failed =>
    have member := (begin recoded).memberAt t c
    rw [show Reader.memberAt t c (r.move Cursor.skipSpacing) = some (.error e) from failed] at member
    rw [recoded.classBody_member c here ends remark]
    generalize Reader.memberAt t.recode c (s.move Cursor.skipSpacing) = there at member ⊢
    cases member with
    | some outcome =>
      obtain ⟨e', rfl, outcome⟩ := outcome.of_error
      exact outcome
  case case5 c r start t here ends remark c' r' read ih =>
    have member := (begin recoded).memberAt t c
    rw [show Reader.memberAt t c (r.move Cursor.skipSpacing) = some (.ok (c', r')) from read] at member
    rw [recoded.classBody_member c here ends remark]
    generalize Reader.memberAt t.recode c (s.move Cursor.skipSpacing) = there at member ⊢
    cases member with
    | some outcome =>
      obtain ⟨s', rfl, recoded'⟩ := outcome.of_ok
      exact ih recoded'
  case case6 c r start t here ends remark other ih =>
    have member := (begin recoded).memberAt t c
    rw [show Reader.memberAt t c (r.move Cursor.skipSpacing) = none from other] at member
    rw [recoded.classBody_member c here ends remark]
    generalize Reader.memberAt t.recode c (s.move Cursor.skipSpacing) = there at member ⊢
    cases member with
    | none =>
      have warned := (begin recoded).warn t.line (.token t.unix_describe_recode.symm)
      exact ih (warned.move Cursor.skipLine_recode)

/-- A class is the same, and its reports are alike. -/
theorem Recoded.classDeclaration (recoded : r.Recoded s) (place : Nat → Location) (scope expected : String) :
    Outcome (r.classDeclaration place scope expected) (s.classDeclaration place scope expected) := by
  have start := recoded.move (f := fun c => (c.skipIf (·.isKeyword "classdef")).skipWhitespace) fun c => by
    rw [Cursor.skipIf_recode (by simp), Cursor.skipWhitespace_recode]
  have attrs := start.attributes .ofClass
  rw [Reader.classDeclaration, Reader.classDeclaration]
  simp only
  generalize (r.move _).attributes .ofClass = here at attrs ⊢
  generalize (s.move _).attributes .ofClass = there at attrs ⊢
  cases attrs with
  | error alike notes => exact .error alike notes
  | @ok attrs r' s' recoded' =>
    simp only [recoded'.cursor, Cursor.skipWhitespace_recode, Cursor.dottedName?_recode]
    generalize r'.cursor.skipWhitespace = c
    rcases c.dottedName? with _ | ⟨name, c'⟩
    · exact (recoded'.withCursor c).fail (.same _)
    have named := (recoded'.withCursor c').checkName (some expected) c.line name
    have bases := named.superclasses
    simp only [Option.map_some, Cursor.line_recode]
    generalize Reader.superclasses (Reader.checkName (r'.withCursor c') _ _ _) = here at bases ⊢
    generalize Reader.superclasses (Reader.checkName (s'.withCursor c'.recode) _ _ _) = there at bases ⊢
    cases bases with
    | @ok bases based based' recoded'' =>
      simp only [recoded''.cursor, Cursor.finishLine_recode, Cursor.commentRun_recode,
        docAfter_recode fun _ => Cursor.isRemark_of_finishLine]
      exact (recoded''.withCursor _).classBody _

end Reader

end MatlabOutline
