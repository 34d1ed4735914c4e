import MatlabOutline.Declaration.AttributeList
import MatlabOutline.Declaration.EntryList

/-!
Function declarations: the signature, the docstring and the `arguments` blocks. The body is
passed over.
-/

namespace MatlabOutline

namespace Cursor

/-- A token that may stand among the outputs of a signature. -/
def isOutputMark (t : Token) : Bool :=
  t.isPunct "[" || t.isPunct "]" || t.isPunct "," || t.isOperator "="

/-- The outputs of a signature after those in `outputs`, and the token that names the function. -/
def signature (outputs : List String) (c : Cursor) :
    Except FaultAt ((List String × Token) × Cursor) :=
  let start := c.skipWhitespace
  match _ : start.peek with
  | none => .error (start.fault .missingFunctionName)
  | some t =>
    if t.kind == .nameFunction then .ok ((outputs, t), start.advance)
    else if isName t then signature (outputs ++ [t.text]) start.advance
    else if isOutputMark t then signature outputs start.advance
    else if t.isNewline || t.kind == .comment then .error (start.fault .missingFunctionName)
    else .error (start.fault (.malformedSignature .outputsOrName t.describe))
termination_by c.remaining
decreasing_by
  all_goals
    have first : c.skipWhitespace.remaining ≤ c.remaining := remaining_skip _ _
  · rename_i here _ _
    exact Nat.lt_of_lt_of_le (remaining_advance_lt here) first
  · rename_i here _ _ _
    exact Nat.lt_of_lt_of_le (remaining_advance_lt here) first

/-- A name that a parameter may have. -/
def isParameter (t : Token) : Bool :=
  isName t || t.isOperator "~"

/-- What a parameter list needs next. -/
def parameterExpected (name : Bool) : Expected :=
  if name then .parameterName else .commaOrParenthesis

/-- The parameters up to the closing parenthesis, after `names`; `name` says that a name must
come, and not a comma. -/
def parametersFrom (names : List String) (name : Bool) (c : Cursor) :
    Except FaultAt (List String × Cursor) :=
  let start := c.skipWhitespace
  match _ : start.peek with
  | none => .error (start.fault (.malformedSignature (parameterExpected name) start.found))
  | some t =>
    if t.isPunct ")" then .ok (names, start.advance)
    else if name && isParameter t then parametersFrom (names ++ [t.text]) false start.advance
    else if !name && t.isPunct "," then parametersFrom names true start.advance
    else .error (start.fault (.malformedSignature (parameterExpected name) start.found))
termination_by c.remaining
decreasing_by
  all_goals
    have first : c.skipWhitespace.remaining ≤ c.remaining := remaining_skip _ _
  · rename_i here _ _
    exact Nat.lt_of_lt_of_le (remaining_advance_lt here) first
  · rename_i here _ _ _
    exact Nat.lt_of_lt_of_le (remaining_advance_lt here) first

/-- A parenthesized parameter list, if there is one. -/
def parameters (c : Cursor) : Except FaultAt (List String × Cursor) :=
  match c.skipWhitespace.take? (·.isPunct "(") with
  | some (_, c') => parametersFrom [] true c'
  | none => .ok ([], c.skipWhitespace)

theorem remaining_signature {outputs : List String} {c : Cursor}
    {result : (List String × Token) × Cursor} (h : c.signature outputs = .ok result) :
    result.2.remaining < c.remaining := by
  have first (c : Cursor) : c.skipWhitespace.remaining ≤ c.remaining := remaining_skip _ _
  fun_induction signature outputs c generalizing result
  case case2 outputs c start t here _ =>
    cases h
    exact Nat.lt_of_lt_of_le (remaining_advance_lt here) (first c)
  case case3 outputs c start t here _ _ ih =>
    have step := remaining_advance_lt here
    exact Nat.lt_of_lt_of_le (Nat.lt_trans (ih h) step) (first c)
  case case4 outputs c start t here _ _ _ ih =>
    have step := remaining_advance_lt here
    exact Nat.lt_of_lt_of_le (Nat.lt_trans (ih h) step) (first c)
  all_goals simp at h

theorem remaining_parametersFrom {names : List String} {name : Bool} {c : Cursor}
    {result : List String × Cursor} (h : c.parametersFrom names name = .ok result) :
    result.2.remaining < c.remaining := by
  have first (c : Cursor) : c.skipWhitespace.remaining ≤ c.remaining := remaining_skip _ _
  fun_induction parametersFrom names name c generalizing result
  case case2 names name c start t here _ =>
    cases h
    exact Nat.lt_of_lt_of_le (remaining_advance_lt here) (first c)
  case case3 names name c start t here _ _ ih =>
    have step := remaining_advance_lt here
    exact Nat.lt_of_lt_of_le (Nat.lt_trans (ih h) step) (first c)
  case case4 names name c start t here _ _ _ ih =>
    have step := remaining_advance_lt here
    exact Nat.lt_of_lt_of_le (Nat.lt_trans (ih h) step) (first c)
  all_goals simp at h

theorem remaining_parameters {c : Cursor} {result : List String × Cursor}
    (h : c.parameters = .ok result) : result.2.remaining ≤ c.remaining := by
  have first : c.skipWhitespace.remaining ≤ c.remaining := remaining_skip _ _
  unfold parameters at h
  split at h
  · next t c' opened =>
    have mark := remaining_take? opened
    have list := remaining_parametersFrom h
    omega
  · cases h
    exact first

end Cursor

namespace Reader

/-- Whether the line that was just finished holds more code. -/
def sharesLine (c : Cursor) : Bool :=
  !(c.atEnd || c.previous.any Token.isNewline)

def isOutputBlock (attrs : Table AttrValue) : Bool :=
  attrs.get? "Output" == some (.bool true)

/-- What the entries of an `arguments` block say, put into the arguments of their names. -/
def specifyAll (args : Arguments) (entries : List Entry) : Arguments :=
  entries.foldl (fun args e => args.specify e.name e.spec) args

/-- One `arguments` block. It is about the parameters, or about the outputs if its `Output`
attribute is true. -/
def argumentsBlock (f : FunctionDoc) (r : Reader) : Except Failure (FunctionDoc × Reader) :=
  match ((r.move Cursor.advance).move Cursor.skipWhitespace).attributes .ofArguments with
  | .error e => .error e
  | .ok (attrs, r') =>
    let (entries, r'') := (r'.withCursor r'.cursor.finishLine.2).entries .arguments true
    if isOutputBlock attrs then .ok ({ f with returns := specifyAll f.returns entries }, r'')
    else .ok ({ f with args := specifyAll f.args entries }, r'')

theorem remaining_argumentsBlock {f : FunctionDoc} {r : Reader} {result : FunctionDoc × Reader}
    {t : Token} (here : r.cursor.peek = some t) (h : r.argumentsBlock f = .ok result) :
    result.2.remaining < r.remaining := by
  have step := Cursor.remaining_advance_lt here
  have gap : r.cursor.advance.skipWhitespace.remaining ≤ r.cursor.advance.remaining :=
    Cursor.remaining_skip _ _
  unfold argumentsBlock at h
  split at h
  · simp at h
  · next attrs r' read =>
    have list := remaining_attributes read
    have line := Cursor.remaining_finishLine r'.cursor
    have rest := remaining_entries .arguments true (r'.withCursor r'.cursor.finishLine.2)
    simp only [remaining, move, cursor_withCursor] at *
    split at h
    all_goals
      cases h
      simp only
      omega

/-- The `arguments` blocks at the start of a body, between blank and comment lines. -/
def argumentBlocks (f : FunctionDoc) (r : Reader) : Except Failure (FunctionDoc × Reader) :=
  let start := r.move (·.skip fun t => t.isSpacing || t.kind == .comment)
  match _ : start.cursor.peek with
  | none => .ok (f, start)
  | some t =>
    if t.isKeyword "arguments" then
      match _ : start.argumentsBlock f with
      | .error e => .error e
      | .ok (f', r') => argumentBlocks f' r'
    else .ok (f, start)
termination_by r.remaining
decreasing_by
  rename_i here _ read
  have first : start.remaining ≤ r.remaining := Cursor.remaining_skip _ _
  exact Nat.lt_of_lt_of_le (remaining_argumentsBlock here read) first

theorem remaining_argumentBlocks {f : FunctionDoc} {r : Reader} {result : FunctionDoc × Reader}
    (h : r.argumentBlocks f = .ok result) : result.2.remaining ≤ r.remaining := by
  have first (r : Reader) : (r.move (·.skip fun t => t.isSpacing || t.kind == .comment)).remaining ≤
      r.remaining := Cursor.remaining_skip _ _
  fun_induction argumentBlocks f r generalizing result
  case case1 f r start none =>
    cases h
    exact first r
  case case2 => simp at h
  case case3 f r start t here _ f' r' read ih =>
    have block := remaining_argumentsBlock here read
    exact Nat.le_trans (ih h) (Nat.le_trans (Nat.le_of_lt block) (first r))
  case case4 f r start t here _ =>
    cases h
    exact first r

/-- The docstring and body of a function whose body begins on the line of its signature. The
comment behind its `end` documents it, or the comment lines below. -/
def shortBody (f : FunctionDoc) (r : Reader) : FunctionDoc × Reader :=
  let (comment, c) := (r.cursor.skipBlock.2).finishLine
  match comment with
  | some t => ({ f with doc := Docstring.ofComments [t.text] }, r.withCursor c)
  | none =>
    let (comments, c') := c.commentRun
    ({ f with doc := Docstring.ofComments comments }, r.withCursor c')

/-- The docstring that follows a declaration line: the comment lines below it, or else the comment
that ended it. -/
def docAfter (trailing : Option Token) (comments : List String) : Option String :=
  Docstring.ofComments comments <|> trailing.bind fun t => Docstring.ofComments [t.text]

/-- The docstring and body of a function whose body begins on a later line. -/
def longBody (f : FunctionDoc) (trailing : Option Token) (r : Reader) :
    Except Failure (FunctionDoc × Reader) :=
  let (comments, c) := r.cursor.commentRun
  match (r.withCursor c).argumentBlocks { f with doc := docAfter trailing comments } with
  | .error e => .error e
  | .ok (f', r') => .ok (f', r'.withCursor r'.cursor.skipBlock.2)

/-- Warns if a declared name is not the expected one. -/
def checkName (r : Reader) (expected : Option String) (line : Nat) (declared : String) : Reader :=
  match expected with
  | none => r
  | some name => if declared = name then r else r.warn line (.nameMismatch declared name)

/-- A function from its `function` keyword through its `end`, or to the end of input if it has
none. -/
def function (scope : String) (expected : Option String) (r : Reader) :
    Except Failure (FunctionDoc × Reader) :=
  match (r.cursor.skipIf (·.isKeyword "function")).signature [] with
  | .error e => .error ⟨e, r.notes⟩
  | .ok ((outputs, name), c) =>
    let named := (r.withCursor c).checkName expected name.line name.text
    match c.parameters with
    | .error e => .error ⟨e, named.notes⟩
    | .ok (params, c') =>
      let (trailing, c'') := c'.finishLine
      let f : FunctionDoc :=
        { name := name.text, scope := scope, args := .ofNames params, returns := .ofNames outputs }
      if sharesLine c'' then .ok (shortBody f (named.withCursor c''))
      else longBody f trailing (named.withCursor c'')

theorem remaining_shortBody (f : FunctionDoc) (r : Reader) :
    (shortBody f r).2.remaining ≤ r.remaining := by
  have block := Cursor.remaining_skipBlock r.cursor
  have line := Cursor.remaining_finishLine r.cursor.skipBlock.2
  have run := Cursor.remaining_commentRun r.cursor.skipBlock.2.finishLine.2
  simp only [shortBody, remaining]
  split <;> simp only [cursor_withCursor] <;> omega

theorem remaining_longBody {f : FunctionDoc} {trailing : Option Token} {r : Reader}
    {result : FunctionDoc × Reader} (h : longBody f trailing r = .ok result) :
    result.2.remaining ≤ r.remaining := by
  have run := Cursor.remaining_commentRun r.cursor
  simp only [longBody] at h
  split at h
  · simp at h
  · next f' r' read =>
    have blocks := remaining_argumentBlocks read
    have body := Cursor.remaining_skipBlock r'.cursor
    cases h
    simp only [remaining, cursor_withCursor] at *
    omega

theorem remaining_function {scope : String} {expected : Option String} {r : Reader}
    {result : FunctionDoc × Reader} (h : r.function scope expected = .ok result) :
    result.2.remaining < r.remaining := by
  have word := Cursor.remaining_skipIf r.cursor (·.isKeyword "function")
  unfold function at h
  split at h
  · simp at h
  · next outputs name c read =>
    have sign := Cursor.remaining_signature read
    simp only at h
    split at h
    · simp at h
    · next params c' list =>
      have behind := Cursor.remaining_parameters list
      have line := Cursor.remaining_finishLine c'
      split at h
      · cases h
        have body := remaining_shortBody
          { name := name.text, scope, args := .ofNames params, returns := .ofNames outputs }
          (((r.withCursor c).checkName expected name.line name.text).withCursor c'.finishLine.2)
        simp only [remaining, cursor_withCursor] at *
        omega
      · have body := remaining_longBody h
        simp only [remaining, cursor_withCursor] at *
        omega

end Reader

end MatlabOutline
