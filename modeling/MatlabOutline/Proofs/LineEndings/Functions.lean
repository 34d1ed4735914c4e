import MatlabOutline.Proofs.LineEndings.Entries

/-!
Function declarations are the same however lines end (`Reader.Recoded.function`).
-/

namespace MatlabOutline

namespace Cursor

@[simp] theorem isOutputMark_recode (t : Token) : isOutputMark t.recode = isOutputMark t := by
  simp [isOutputMark]

@[simp] theorem isParameter_recode (t : Token) : isParameter t.recode = isParameter t := by
  simp [isParameter]

/-- Parameters are names or placeholders, which are not recoded. -/
theorem recode_of_isParameter {t : Token} (name : isParameter t = true) : t.recode = t := by
  rw [isParameter, Bool.or_eq_true] at name
  rcases name with name | mark
  · exact recode_of_isName name
  · have kind : t.kind = .operator := by
      simp only [Token.isOperator, Token.is, Bool.and_eq_true, beq_iff_eq] at mark
      exact mark.1
    exact Token.recode_of_kind (by simp [kind]) (by simp [kind])

/-- A signature, by its first token. -/
theorem signature_eq (outputs : List String) (c : Cursor) :
    c.signature outputs =
      let start := c.skipWhitespace
      match start.peek with
      | none => .error (start.fault .missingFunctionName)
      | some t =>
        if t.kind == .nameFunction then .ok ((outputs, t), start.advance)
        else if isName t then signature (outputs ++ [t.text]) start.advance
        else if isOutputMark t then signature outputs start.advance
        else if t.isNewline || t.kind == .comment then .error (start.fault .missingFunctionName)
        else .error (start.fault (.malformedSignature .outputsOrName t.describe)) := by
  rw [signature.eq_def]
  simp only
  split <;> simp only [*]

/-- A signature names the same outputs and function. -/
theorem recoded_signature (outputs : List String) (c : Cursor) :
    Recoded (c.signature outputs) (c.recode.signature outputs) := by
  fun_induction signature outputs c with
  | case1 outputs c start none =>
    rw [signature_eq]
    simp only [skipWhitespace_recode, peek_recode, none, start, Option.map_none]
    exact .error (fault_recode _ (.same _))
  | case2 outputs c start t here name =>
    rw [signature_eq]
    have kind := beq_iff_eq.mp name
    simp only [skipWhitespace_recode, peek_recode, here, start, Option.map_some, advance_recode,
      Token.recode_of_kind (t := t) (by simp [kind]) (by simp [kind]), name, if_true]
    exact .ok _ _
  | case3 outputs c start t here name output ih =>
    rw [signature_eq _ c.recode]
    simp only [skipWhitespace_recode, peek_recode, here, start, Option.map_some, advance_recode,
      recode_of_isName output, name, output, Bool.false_eq_true, if_false, if_true]
    exact ih
  | case4 outputs c start t here name output mark ih =>
    rw [signature_eq _ c.recode]
    simp only [skipWhitespace_recode, peek_recode, here, start, Option.map_some, advance_recode, Token.kind_recode,
      isName_recode, isOutputMark_recode, name, output, mark, Bool.false_eq_true, if_false, if_true]
    exact ih
  | case5 outputs c start t here name output mark ends =>
    rw [signature_eq]
    simp only [skipWhitespace_recode, peek_recode, here, start, Option.map_some, Token.kind_recode,
      isName_recode, isOutputMark_recode, Token.isNewline_recode, name, output, mark, ends, Bool.false_eq_true,
      if_false, if_true]
    exact .error (fault_recode _ (.same _))
  | case6 outputs c start t here name output mark ends =>
    rw [signature_eq]
    simp only [skipWhitespace_recode, peek_recode, here, start, Option.map_some, Token.kind_recode,
      isName_recode, isOutputMark_recode, Token.isNewline_recode, name, output, mark, ends, Bool.false_eq_true,
      if_false]
    exact .error (fault_recode _ (.signature t.unix_describe_recode.symm))

/-- A parameter list, by its first token. -/
theorem parametersFrom_eq (names : List String) (name : Bool) (c : Cursor) :
    c.parametersFrom names name =
      let start := c.skipWhitespace
      match start.peek with
      | none => .error (start.fault (.malformedSignature (parameterExpected name) start.found))
      | some t =>
        if t.isPunct ")" then .ok (names, start.advance)
        else if name && isParameter t then parametersFrom (names ++ [t.text]) false start.advance
        else if !name && t.isPunct "," then parametersFrom names true start.advance
        else .error (start.fault (.malformedSignature (parameterExpected name) start.found)) := by
  rw [parametersFrom.eq_def]
  simp only
  split <;> simp only [*]

theorem recoded_parametersFrom (names : List String) (name : Bool) (c : Cursor) :
    Recoded (c.parametersFrom names name) (c.recode.parametersFrom names name) := by
  fun_induction parametersFrom names name c with
  | case1 names name c start none =>
    rw [parametersFrom_eq]
    simp only [skipWhitespace_recode, peek_recode, none, start, Option.map_none]
    exact .error (fault_recode _ (.signature (found_recode _)))
  | case2 names name c start t here closed =>
    rw [parametersFrom_eq]
    simp only [skipWhitespace_recode, peek_recode, here, start, Option.map_some, advance_recode,
      Token.isPunct_recode, closed, if_true]
    exact .ok _ _
  | case3 names name c start t here closed parameter ih =>
    rw [parametersFrom_eq _ _ c.recode]
    have fixed := recode_of_isParameter (Bool.and_eq_true _ _ ▸ parameter).2
    simp only [skipWhitespace_recode, peek_recode, here, start, Option.map_some, advance_recode, fixed, closed,
      parameter, Bool.false_eq_true, if_false, if_true]
    exact ih
  | case4 names name c start t here closed parameter comma ih =>
    rw [parametersFrom_eq _ _ c.recode]
    simp only [skipWhitespace_recode, peek_recode, here, start, Option.map_some, advance_recode,
      Token.isPunct_recode, isParameter_recode, closed, parameter, comma, Bool.false_eq_true, if_false, if_true]
    exact ih
  | case5 names name c start t here closed parameter comma =>
    rw [parametersFrom_eq]
    simp only [skipWhitespace_recode, peek_recode, here, start, Option.map_some, Token.isPunct_recode,
      isParameter_recode, closed, parameter, comma, Bool.false_eq_true, if_false]
    exact .error (fault_recode _ (.signature (found_recode _)))

/-- A parameter list names the same parameters. -/
theorem recoded_parameters (c : Cursor) : Recoded c.parameters c.recode.parameters := by
  rw [parameters, parameters, skipWhitespace_recode, take?_recode (by simp)]
  rcases c.skipWhitespace.take? _ with _ | ⟨t, c'⟩
  · exact .ok _ _
  · exact recoded_parametersFrom [] true c'

end Cursor

namespace Reader

variable {r s : Reader}

@[simp] theorem sharesLine_recode (c : Cursor) : sharesLine c.recode = sharesLine c := by
  simp [sharesLine, Option.any_map]

@[simp] theorem specifyAll_recode (args : Arguments) (entries : List Entry) :
    specifyAll args (entries.map Entry.recode) = specifyAll args entries := by
  simp [specifyAll, List.foldl_map, Entry.recode]

theorem Recoded.argumentsBlock (recoded : r.Recoded s) (f : FunctionDoc) :
    Outcome (r.argumentsBlock f) (s.argumentsBlock f) := by
  have attrs := ((recoded.move Cursor.advance_recode).move Cursor.skipWhitespace_recode).attributes .ofArguments
  rw [Reader.argumentsBlock, Reader.argumentsBlock]
  generalize ((r.move Cursor.advance).move Cursor.skipWhitespace).attributes .ofArguments = here at attrs ⊢
  generalize ((s.move Cursor.advance).move Cursor.skipWhitespace).attributes .ofArguments = there at attrs ⊢
  cases attrs with
  | error alike notes => exact .error alike notes
  | @ok attrs r' s' recoded' =>
    have behind := recoded'.withCursor r'.cursor.finishLine.2
    have finished : s'.cursor.finishLine.2 = r'.cursor.finishLine.2.recode := by
      rw [recoded'.cursor, Cursor.finishLine_recode]
    rw [← finished] at behind
    have read := behind.entries .arguments true
    simp only [read.1, specifyAll_recode]
    split
    · exact .ok _ read.2
    · exact .ok _ read.2

/-- What stands below a signature: a block, or the body. -/
theorem argumentBlocks_eq (f : FunctionDoc) (r : Reader) :
    r.argumentBlocks f =
      let start := r.move (·.skip fun t => t.isSpacing || t.kind == .comment)
      match start.cursor.peek with
      | none => .ok (f, start)
      | some t =>
        if t.isKeyword "arguments" then
          match start.argumentsBlock f with
          | .error e => .error e
          | .ok (f', r') => argumentBlocks f' r'
        else .ok (f, start) := by
  rw [argumentBlocks.eq_def]
  simp only
  split
  · simp only [*]
  next here =>
  simp only [here]
  split
  · split <;> simp only [*]
  · rfl

/-- The blocks at the start of a body say the same of the arguments. -/
theorem Recoded.argumentBlocks (recoded : r.Recoded s) (f : FunctionDoc) :
    Outcome (r.argumentBlocks f) (s.argumentBlocks f) := by
  have begin {r s : Reader} (recoded : r.Recoded s) :=
    recoded.move (f := (·.skip fun t => t.isSpacing || t.kind == .comment)) (Cursor.skip_recode (by simp))
  fun_induction Reader.argumentBlocks f r generalizing s
  case case1 f r start none =>
    rw [argumentBlocks_eq]
    simp only [(begin recoded).peek, none, start, Option.map_none]
    exact .ok _ (begin recoded)
  case case2 f r start t here word e failed =>
    obtain ⟨e', there, outcome⟩ := (failed ▸ (begin recoded).argumentsBlock f).of_error
    rw [argumentBlocks_eq]
    simp only [(begin recoded).peek, here, start, Option.map_some, Token.isKeyword_recode, word, if_true, there]
    exact outcome
  case case3 f r start t here word f' r' read ih =>
    obtain ⟨s', there, recoded'⟩ := (read ▸ (begin recoded).argumentsBlock f).of_ok
    rw [argumentBlocks_eq f s]
    simp only [(begin recoded).peek, here, start, Option.map_some, Token.isKeyword_recode, word, if_true, there]
    exact ih recoded'
  case case4 f r start t here word =>
    rw [argumentBlocks_eq]
    simp only [(begin recoded).peek, here, start, Option.map_some, Token.isKeyword_recode, word,
      Bool.false_eq_true, if_false]
    exact .ok _ (begin recoded)

theorem Recoded.shortBody (recoded : r.Recoded s) (f : FunctionDoc) :
    Outcome (.ok (Reader.shortBody f r)) (.ok (Reader.shortBody f s)) := by
  simp only [Reader.shortBody, recoded.cursor, Cursor.skipBlock_recode, Cursor.finishLine_recode,
    Cursor.commentRun_recode]
  cases behind : r.cursor.skipBlock.2.finishLine.1 with
  | none =>
    simp only [Option.map_none, Docstring.ofComments_recode]
    exact .ok _ (recoded.withCursor _)
  | some t =>
    simp only [Option.map_some, Cursor.ofComments_of_remark (Cursor.isRemark_of_finishLine behind)]
    exact .ok _ (recoded.withCursor _)

/-- The docstring behind a signature is the same. -/
theorem docAfter_recode {trailing : Option Token} (remark : ∀ t, trailing = some t → t.isRemark = true)
    (comments : List String) :
    docAfter (trailing.map Token.recode) (comments.map Docstring.recode) = docAfter trailing comments := by
  cases trailing with
  | none => simp [docAfter]
  | some t => simp [docAfter, Cursor.ofComments_of_remark (remark t rfl)]

theorem Recoded.longBody (recoded : r.Recoded s) (f : FunctionDoc) {trailing : Option Token}
    (remark : ∀ t, trailing = some t → t.isRemark = true) :
    Outcome (Reader.longBody f trailing r) (Reader.longBody f (trailing.map Token.recode) s) := by
  have blocks := (recoded.withCursor r.cursor.commentRun.2).argumentBlocks
    { f with doc := docAfter trailing r.cursor.commentRun.1 }
  simp only [Reader.longBody, recoded.cursor, Cursor.commentRun_recode, docAfter_recode remark]
  generalize Reader.argumentBlocks _ (r.withCursor _) = here at blocks ⊢
  generalize Reader.argumentBlocks _ (s.withCursor _) = there at blocks ⊢
  cases blocks with
  | error alike notes => exact .error alike notes
  | @ok f' r' s' recoded' =>
    simp only [recoded'.cursor, Cursor.skipBlock_recode]
    exact .ok _ (recoded'.withCursor _)

theorem Recoded.checkName (recoded : r.Recoded s) (expected : Option String) (line : Nat) (declared : String) :
    (r.checkName expected line declared).Recoded (s.checkName expected line declared) := by
  cases expected with
  | none => exact recoded
  | some name =>
    simp only [Reader.checkName]
    split
    · exact recoded
    · exact recoded.warn line (.same _)

/-- A function is the same, and its reports are alike. -/
theorem Recoded.function (recoded : r.Recoded s) (scope : String) (expected : Option String) :
    Outcome (r.function scope expected) (s.function scope expected) := by
  have signed := Cursor.recoded_signature [] (r.cursor.skipIf (·.isKeyword "function"))
  rw [Reader.function, Reader.function, recoded.cursor, Cursor.skipIf_recode (by simp)]
  generalize Cursor.signature [] (r.cursor.skipIf _) = here at signed ⊢
  generalize Cursor.signature [] (r.cursor.skipIf _).recode = there at signed ⊢
  cases signed with
  | error alike => exact .error alike recoded.notes
  | ok read c =>
    obtain ⟨outputs, name⟩ := read
    have named := (recoded.withCursor c).checkName expected name.line name.text
    have listed := Cursor.recoded_parameters c
    simp only
    generalize c.parameters = here at listed ⊢
    generalize c.recode.parameters = there at listed ⊢
    cases listed with
    | error alike => exact .error alike named.notes
    | ok params c' =>
      have behind := named.withCursor c'.finishLine.2
      simp only [Cursor.finishLine_recode, sharesLine_recode]
      split
      · exact behind.shortBody _
      · exact behind.longBody _ fun _ => Cursor.isRemark_of_finishLine

end Reader

end MatlabOutline
