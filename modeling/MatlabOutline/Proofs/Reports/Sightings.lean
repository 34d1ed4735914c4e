import MatlabOutline.SourceUnit

/-!
What reading comes upon that there is to tell, in order, each with the place that it is about. The
functions go through the run as the reader does and say nothing of lines; the line of a place is that
of the token there (`Sighting.note?`, `Sighting.fault?`).
-/

namespace MatlabOutline

inductive Matter
  | warning (cause : Warning)
  /-- A token that a `methods` block does not need. -/
  | skipped
  | fault (fault : Fault)
deriving DecidableEq, Repr

/-- A place in a run, and what there is to tell about it. -/
structure Sighting where
  site : Cursor
  matter : Matter
deriving DecidableEq, Repr

namespace Sighting

/-- The note that a reader makes of it. -/
def note? (s : Sighting) : Option Note :=
  match s.matter with
  | .warning cause => some (.warning s.site.line cause)
  | .skipped => some (.skipped s.site.line s.site.found)
  | .fault _ => none

/-- The fault that a reader fails with there. -/
def fault? (s : Sighting) : Option FaultAt :=
  match s.matter with
  | .fault fault => some (s.site.fault fault)
  | _ => none

end Sighting

/-- The reader after it has made its notes of `seen`. -/
def Reader.tell (r : Reader) (seen : List Sighting) : Reader :=
  { r with notes := (seen.filterMap Sighting.note?).reverse ++ r.notes }

namespace Cursor

def warns (c : Cursor) (cause : Warning) : Sighting :=
  ⟨c, .warning cause⟩

/-- An attribute list that breaks off at the cursor. -/
def lacks (c : Cursor) (expected : Expected) : Sighting :=
  ⟨c, .fault (.malformedAttributes expected c.found)⟩

/-- A signature that breaks off at the cursor. -/
def breaks (c : Cursor) (expected : Expected) : Sighting :=
  ⟨c, .fault (.malformedSignature expected c.found)⟩

/-- Where the line ends that a list began on: before a line end that no marker joins to the next
line, or at the end of input. -/
def lineStop (joined : Bool) (passed : List Token) : List Token → Cursor
  | [] => ⟨passed, []⟩
  | t :: r =>
    if t.isNewline && !joined then ⟨passed, t :: r⟩ else lineStop t.isContinuation (t :: passed) r

/-- What a value lacks that cannot be read. -/
def valueSighting (c : Cursor) : Sighting :=
  if c.at? (·.isOperator "?") then c.advance.lacks .className
  else if c.at? (·.isPunct "\x7b") then
    (lineStop false c.advance.passed c.advance.rest).lacks .closingBrace
  else c.lacks .attributeValue

/-- Where the outputs of a signature end: at its name, if it has one. -/
def signatureStop (c : Cursor) : Cursor :=
  c.skip fun t => t.isWhitespace || isName t || isOutputMark t

def signatureSighting (c : Cursor) : Sighting :=
  if c.signatureStop.peek.all fun t => t.isNewline || t.kind == .comment then
    ⟨c.signatureStop, .fault .missingFunctionName⟩
  else c.signatureStop.breaks .outputsOrName

/-- Where names and commas stop taking turns; `name` says that a name comes next. -/
def parametersSighting (name : Bool) (c : Cursor) : Sighting :=
  let start := c.skipWhitespace
  match _ : start.peek with
  | none => start.breaks (parameterExpected name)
  | some t =>
    if name && isParameter t || !name && t.isPunct "," then parametersSighting (!name) start.advance
    else start.breaks (parameterExpected name)
termination_by c.remaining
decreasing_by
  rename_i here _
  exact Nat.lt_of_lt_of_le (remaining_advance_lt here) (remaining_skip _ _)

end Cursor

namespace Sightings

/-- A value that the kind of its attribute does not accept is told at the attribute's name. -/
def oneAttribute (v : Vocabulary) (r : Reader) : List Sighting :=
  let c := (r.cursor.skipIf Reader.isNegation).skipWhitespace
  match c.take? Cursor.isName with
  | none => [c.lacks .attributeName]
  | some (t, c') =>
    match v.lookup t.text with
    | none => [⟨c, .fault (.unknownAttribute v.name t.text)⟩]
    | some (spelling, kind) =>
      match c'.skipWhitespace.attrSetting (r.cursor.at? Reader.isNegation) with
      | .error _ => [c'.skipWhitespace.advance.skipWhitespace.valueSighting]
      | .ok (value, _) =>
        if kind.accepts value then [] else [c.warns (.attributeKind spelling kind value)]

def attributesFrom (v : Vocabulary) (r : Reader) : List Sighting :=
  let start := r.move Cursor.skipWhitespace
  if start.cursor.at? (·.isPunct ")") then []
  else
    oneAttribute v start ++
      match _ : start.oneAttribute v with
      | .error _ => []
      | .ok (_, r') =>
        let behind := r'.move Cursor.skipWhitespace
        match _ : behind.cursor.take? (·.isPunct ",") with
        | some (_, c) => attributesFrom v (behind.withCursor c)
        | none =>
          if behind.cursor.at? (·.isPunct ")") then []
          else [behind.cursor.lacks .commaOrParenthesis]
termination_by r.remaining
decreasing_by
  rename_i read _ comma
  have first : start.remaining ≤ r.remaining := Cursor.remaining_skip _ _
  have item := Reader.remaining_oneAttribute read
  have gap : behind.remaining ≤ r'.remaining := Cursor.remaining_skip _ _
  have mark := Cursor.remaining_take? comma
  simp only [Reader.remaining, Reader.cursor_withCursor] at *
  omega

def attributes (v : Vocabulary) (r : Reader) : List Sighting :=
  match r.cursor.take? (·.isPunct "(") with
  | some (_, c) => attributesFrom v (r.withCursor c)
  | none => []

/-- The attributes behind the keyword of a block. -/
def header (v : Vocabulary) (r : Reader) : List Sighting :=
  attributes v ((r.move Cursor.advance).move Cursor.skipWhitespace)

/-- A size that cannot be read is told at its opening parenthesis. -/
def entrySize (name : String) (c : Cursor) : List Sighting :=
  match c.take? (·.isPunct "(") with
  | none => []
  | some (_, c') =>
    match (Cursor.sizeFrom false c'.passed c'.rest).1 with
    | some (_ :: _) => []
    | _ => [c.warns (.invalidSize name)]

def entry (dotted : Bool) (c : Cursor) : List Sighting :=
  entrySize (c.entryName dotted).1 (c.entryName dotted).2.skipWhitespace

def entries (block : BlockKind) (dotted : Bool) (r : Reader) : List Sighting :=
  let start := r.move Cursor.skipWhitespace
  match _ : start.cursor.peek with
  | none => [start.cursor.warns (.unterminatedBlock block)]
  | some t =>
    if t.isKeyword "end" then []
    else if Cursor.isName t then
      entry dotted start.cursor ++ entries block dotted (start.entry dotted).2
    else if t.kind == .comment || Reader.separatesEntries t then
      entries block dotted (start.move Cursor.advance)
    else
      let seen := start.cursor.warns (.unexpectedInBlock t.describe block)
      seen :: entries block dotted ((start.tell [seen]).move Cursor.skipLine)
termination_by r.remaining
decreasing_by
  all_goals have first : start.remaining ≤ r.remaining := Cursor.remaining_skip _ _
  · rename_i here _ name
    have step : (start.entry dotted).2.remaining < start.remaining := by
      apply Reader.remaining_entry
      simp [Cursor.at?, here, name]
    exact Nat.lt_of_lt_of_le step first
  · rename_i here _ _ _
    exact Nat.lt_of_lt_of_le (Cursor.remaining_advance_lt here) first
  · rename_i here _ _ _
    have step := Cursor.remaining_advance_lt here
    rw [Cursor.remaining_advance] at step
    exact Nat.lt_of_le_of_lt (Cursor.remaining_skipLine start.cursor)
      (Nat.lt_of_lt_of_le step first)

/-- An `arguments` block. -/
def argumentsBlock (r : Reader) : List Sighting :=
  header .ofArguments r ++
    match ((r.move Cursor.advance).move Cursor.skipWhitespace).attributes .ofArguments with
    | .error _ => []
    | .ok (_, r') => entries .arguments true (r'.withCursor r'.cursor.finishLine.2)

def argumentBlocks (f : FunctionDoc) (r : Reader) : List Sighting :=
  let start := r.move (·.skip fun t => t.isSpacing || t.kind == .comment)
  match _ : start.cursor.peek with
  | none => []
  | some t =>
    if t.isKeyword "arguments" then
      argumentsBlock start ++
        match _ : start.argumentsBlock f with
        | .error _ => []
        | .ok (f', r') => argumentBlocks f' r'
    else []
termination_by r.remaining
decreasing_by
  rename_i here _ read
  have first : start.remaining ≤ r.remaining := Cursor.remaining_skip _ _
  exact Nat.lt_of_lt_of_le (Reader.remaining_argumentsBlock here read) first

/-- A name at `c` that is not the expected one. -/
def name (expected : Option String) (c : Cursor) (declared : String) : List Sighting :=
  match expected with
  | none => []
  | some name => if declared = name then [] else [c.warns (.nameMismatch declared name)]

def function (scope : String) (expected : Option String) (r : Reader) : List Sighting :=
  let start := r.cursor.skipIf (·.isKeyword "function")
  match start.signature [] with
  | .error _ => [start.signatureSighting]
  | .ok ((outputs, declared), c) =>
    let named := name expected start.signatureStop declared.text
    named ++
      match c.parameters with
      | .error _ => [c.skipWhitespace.advance.parametersSighting true]
      | .ok (params, c') =>
        let (trailing, c'') := c'.finishLine
        if Reader.sharesLine c'' then []
        else
          let f : FunctionDoc :=
            { name := declared.text, scope := scope, args := .ofNames params
              returns := .ofNames outputs, doc := Reader.docAfter trailing c''.commentRun.1 }
          argumentBlocks f ((r.tell named).withCursor c''.commentRun.2)

def superclassesFrom (c : Cursor) : List Sighting :=
  let start := c.skipWhitespace
  match _ : start.dottedName? with
  | none => [start.warns (.unexpectedToken start.found)]
  | some (_, c') =>
    match _ : c'.skipWhitespace.take? (·.isOperator "&") with
    | some (_, c'') => superclassesFrom c''
    | none => []
termination_by c.remaining
decreasing_by
  rename_i read _ mark
  have first : start.remaining ≤ c.remaining := Cursor.remaining_skip _ _
  have name := Cursor.remaining_dottedName? read
  have gap : c'.skipWhitespace.remaining ≤ c'.remaining := Cursor.remaining_skip _ _
  have joined := Cursor.remaining_take? mark
  omega

def superclasses (c : Cursor) : List Sighting :=
  match c.skipWhitespace.take? (·.isOperator "<") with
  | some (_, c') => superclassesFrom c'
  | none => []

def propertiesBlock (r : Reader) : List Sighting :=
  header .ofProperty r ++
    match r.blockHeader .ofProperty with
    | .error _ => []
    | .ok (_, r') => entries .properties false r'

def methodsFrom (attrs : Table AttrValue) (c : ClassDoc) (r : Reader) : List Sighting :=
  let start := r.move Cursor.skipSpacing
  match _ : start.cursor.peek with
  | none => [start.cursor.warns (.unterminatedBlock .methods)]
  | some t =>
    if t.isKeyword "end" then []
    else if t.isKeyword "function" then
      function c.scope none start ++
        match _ : start.function c.scope none with
        | .error _ => []
        | .ok (f, r') => methodsFrom attrs (Reader.addMethod c attrs f) r'
    else if t.kind == .comment then methodsFrom attrs c (start.move Cursor.advance)
    else
      let seen : Sighting := ⟨start.cursor, .skipped⟩
      seen :: methodsFrom attrs c ((start.tell [seen]).move Cursor.skipLine)
termination_by r.remaining
decreasing_by
  all_goals have first : start.remaining ≤ r.remaining := Cursor.remaining_skip _ _
  · rename_i read
    exact Nat.lt_of_lt_of_le (Reader.remaining_function read) first
  · rename_i here _ _ _
    exact Nat.lt_of_lt_of_le (Cursor.remaining_advance_lt here) first
  · rename_i here _ _ _
    have step := Cursor.remaining_advance_lt here
    rw [Cursor.remaining_advance] at step
    exact Nat.lt_of_le_of_lt (Cursor.remaining_skipLine start.cursor)
      (Nat.lt_of_lt_of_le step first)

def methodsBlock (c : ClassDoc) (r : Reader) : List Sighting :=
  header .ofMethod r ++
    match r.blockHeader .ofMethod with
    | .error _ => []
    | .ok (attrs, r') => methodsFrom attrs c r'

/-- A block that is passed over is told at the end of input, unless its `end` is found before. -/
def skippedBlock (v : Vocabulary) (block : BlockKind) (r : Reader) : List Sighting :=
  header v r ++
    match ((r.move Cursor.advance).move Cursor.skipWhitespace).attributes v with
    | .error _ => []
    | .ok (_, r') =>
      if r'.cursor.skipBlock.1 then []
      else [r'.cursor.skipBlock.2.warns (.unterminatedBlock block)]

def memberBlock (word : String) (c : ClassDoc) (r : Reader) : List Sighting :=
  if word = "properties" then propertiesBlock r
  else if word = "methods" then methodsBlock c r
  else if word = "events" then skippedBlock .ofEvents .events r
  else skippedBlock .ofEnumeration .enumeration r

def classBody (c : ClassDoc) (r : Reader) : List Sighting :=
  let start := r.move Cursor.skipSpacing
  match _ : start.cursor.peek with
  | none => [start.cursor.warns (.unterminatedClass c.name)]
  | some t =>
    if t.isKeyword "end" then []
    else if t.kind == .comment then classBody c (start.move Cursor.advance)
    else
      match _ : if t.kind == .keyword then start.memberBlock t.text c else none with
      | some (.error _) => memberBlock t.text c start
      | some (.ok (c', r')) => memberBlock t.text c start ++ classBody c' r'
      | none =>
        let seen := start.cursor.warns (.unexpectedToken t.describe)
        seen :: classBody c ((start.tell [seen]).move Cursor.skipLine)
termination_by r.remaining
decreasing_by
  all_goals have first : start.remaining ≤ r.remaining := Cursor.remaining_skip _ _
  · rename_i here _ _
    exact Nat.lt_of_lt_of_le (Cursor.remaining_advance_lt here) first
  · rename_i here _ _ read
    split at read
    · exact Nat.lt_of_lt_of_le (Reader.remaining_memberBlock here read) first
    · simp at read
  · rename_i here _ _ _
    have step := Cursor.remaining_advance_lt here
    rw [Cursor.remaining_advance] at step
    exact Nat.lt_of_le_of_lt (Cursor.remaining_skipLine start.cursor)
      (Nat.lt_of_lt_of_le step first)

/-- The reader behind the keyword of a class. -/
def classStart (r : Reader) : Reader :=
  r.move fun c => (c.skipIf (·.isKeyword "classdef")).skipWhitespace

/-- Where the name of a class is looked for, unless its attributes cannot be read. -/
def className? (r : Reader) : Option Cursor :=
  match (classStart r).attributes .ofClass with
  | .error _ => none
  | .ok (_, r') => some r'.cursor.skipWhitespace

def classDeclaration (place : Nat → Location) (scope expected : String) (r : Reader) : List Sighting :=
  attributes .ofClass (classStart r) ++
    match (classStart r).attributes .ofClass with
    | .error _ => []
    | .ok (attrs, r') =>
      let c := r'.cursor.skipWhitespace
      match c.dottedName? with
      | none => [⟨c, .fault .missingClassName⟩]
      | some (declared, c') =>
        let named := name (some expected) c declared
        let (bases, based) := ((r'.withCursor c').tell named).superclasses
        let (trailing, c'') := based.cursor.finishLine
        let doc : ClassDoc :=
          { name := expected, scope := scope, attrs := attrs, superclasses := bases
            doc := Reader.docAfter trailing c''.commentRun.1, location := place c.line }
        named ++ (superclasses c' ++ classBody doc (based.withCursor c''.commentRun.2))

/-- What reading a unit comes upon, as a function or a class; a script has nothing to tell. -/
def ofUnit (location : Location) (text name scope : String) : List Sighting :=
  match classify (tokenize text) with
  | .script => []
  | .function => function scope (some name) (readerOf text)
  | .cls => classDeclaration (placeOf location text) scope name (readerOf text)

end Sightings

end MatlabOutline
