import MatlabOutline.Declaration.Function

/-!
Class declarations: the header line, then `properties` and `methods` blocks. Blocks of events and
enumeration members have their attributes checked and are passed over.
-/

namespace MatlabOutline

namespace Reader

/-- The superclasses after those in `names`, which `&` separates. -/
def superclassesFrom (names : List String) (r : Reader) : List String × Reader :=
  let c := r.cursor.skipWhitespace
  match _ : c.dottedName? with
  | none => (names, (r.withCursor c).warn c.line (.unexpectedToken c.found))
  | some (name, c') =>
    match _ : c'.skipWhitespace.take? (·.isOperator "&") with
    | some (_, c'') => superclassesFrom (names ++ [name]) (r.withCursor c'')
    | none => (names ++ [name], r.withCursor c'.skipWhitespace)
termination_by r.remaining
decreasing_by
  rename_i read _ mark
  have first : c.remaining ≤ r.cursor.remaining := Cursor.remaining_skip _ _
  have name := Cursor.remaining_dottedName? read
  have gap : c'.skipWhitespace.remaining ≤ c'.remaining := Cursor.remaining_skip _ _
  have joined := Cursor.remaining_take? mark
  simp only [remaining, cursor_withCursor] at *
  omega

/-- The superclasses of a class, if it has any. -/
def superclasses (r : Reader) : List String × Reader :=
  match r.cursor.skipWhitespace.take? (·.isOperator "<") with
  | some (_, c) => superclassesFrom [] (r.withCursor c)
  | none => ([], r.move Cursor.skipWhitespace)

/-- The attributes of a block whose keyword is at the cursor, through the end of that line. -/
def blockHeader (v : Vocabulary) (r : Reader) : Except Failure (Table AttrValue × Reader) :=
  match ((r.move Cursor.advance).move Cursor.skipWhitespace).attributes v with
  | .error e => .error e
  | .ok (attrs, r') => .ok (attrs, r'.withCursor r'.cursor.finishLine.2)

/-- The property that an entry declares. -/
def propertyOf (c : ClassDoc) (attrs : Table AttrValue) (e : Entry) : PropertyDoc where
  name := e.name
  className := c.name
  scope := c.scope
  attrs := attrs
  spec := e.spec

def addProperties (c : ClassDoc) (attrs : Table AttrValue) (entries : List Entry) : ClassDoc :=
  entries.foldl
    (fun c e => { c with properties := c.properties.insert e.name (propertyOf c attrs e) }) c

/-- A `properties` block. -/
def propertiesBlock (c : ClassDoc) (r : Reader) : Except Failure (ClassDoc × Reader) :=
  match r.blockHeader .ofProperty with
  | .error e => .error e
  | .ok (attrs, r') =>
    let (entries, r'') := r'.entries .properties false
    .ok (addProperties c attrs entries, r'')

def addMethod (c : ClassDoc) (attrs : Table AttrValue) (f : FunctionDoc) : ClassDoc :=
  let m := MethodDoc.ofFunction f attrs c.name
  { c with methods := c.methods.insert m.function.name m }

/-- The methods up to the `end` of a block with attributes `attrs`. -/
def methodsFrom (attrs : Table AttrValue) (c : ClassDoc) (r : Reader) :
    Except Failure (ClassDoc × Reader) :=
  let start := r.move Cursor.skipSpacing
  match _ : start.cursor.peek with
  | none => .ok (c, start.warn start.cursor.line (.unterminatedBlock .methods))
  | some t =>
    if t.isKeyword "end" then .ok (c, start.move Cursor.advance)
    else if t.isKeyword "function" then
      match _ : start.function c.scope none with
      | .error e => .error e
      | .ok (f, r') => methodsFrom attrs (addMethod c attrs f) r'
    else if t.kind == .comment then methodsFrom attrs c (start.move Cursor.advance)
    else methodsFrom attrs c ((start.note (.skipped t.line t.describe)).move Cursor.skipLine)
termination_by r.remaining
decreasing_by
  all_goals have first : start.remaining ≤ r.remaining := Cursor.remaining_skip _ _
  · rename_i read
    exact Nat.lt_of_lt_of_le (remaining_function read) first
  · rename_i here _ _ _
    exact Nat.lt_of_lt_of_le (Cursor.remaining_advance_lt here) first
  · rename_i here _ _ _
    have step := Cursor.remaining_advance_lt here
    rw [Cursor.remaining_advance] at step
    exact Nat.lt_of_le_of_lt (Cursor.remaining_skipLine start.cursor)
      (Nat.lt_of_lt_of_le step first)

/-- A `methods` block. -/
def methodsBlock (c : ClassDoc) (r : Reader) : Except Failure (ClassDoc × Reader) :=
  match r.blockHeader .ofMethod with
  | .error e => .error e
  | .ok (attrs, r') => methodsFrom attrs c r'

/-- A block that is passed over after its attributes have been checked. -/
def skippedBlock (v : Vocabulary) (block : BlockKind) (r : Reader) : Except Failure Reader :=
  match ((r.move Cursor.advance).move Cursor.skipWhitespace).attributes v with
  | .error e => .error e
  | .ok (_, r') =>
    let (closed, c) := r'.cursor.skipBlock
    let behind := r'.withCursor c
    .ok (if closed then behind else behind.warn c.line (.unterminatedBlock block))

/-- The block of a class that a keyword opens. -/
def memberBlock (word : String) (c : ClassDoc) (r : Reader) :
    Option (Except Failure (ClassDoc × Reader)) :=
  if word = "properties" then some (r.propertiesBlock c)
  else if word = "methods" then some (r.methodsBlock c)
  else if word = "events" then some ((r.skippedBlock .ofEvents .events).map (c, ·))
  else if word = "enumeration" then some ((r.skippedBlock .ofEnumeration .enumeration).map (c, ·))
  else none

theorem remaining_blockHeader {v : Vocabulary} {r : Reader} {t : Token}
    {result : Table AttrValue × Reader} (here : r.cursor.peek = some t)
    (h : r.blockHeader v = .ok result) : result.2.remaining < r.remaining := by
  have step := Cursor.remaining_advance_lt here
  have gap : r.cursor.advance.skipWhitespace.remaining ≤ r.cursor.advance.remaining :=
    Cursor.remaining_skip _ _
  unfold blockHeader at h
  split at h
  · simp at h
  · next attrs r' read =>
    have list := remaining_attributes read
    have line := Cursor.remaining_finishLine r'.cursor
    cases h
    simp only [remaining, move, cursor_withCursor] at *
    omega

theorem remaining_methodsFrom {attrs : Table AttrValue} {c : ClassDoc} {r : Reader}
    {result : ClassDoc × Reader} (h : r.methodsFrom attrs c = .ok result) :
    result.2.remaining ≤ r.remaining := by
  have first (r : Reader) : (r.move Cursor.skipSpacing).remaining ≤ r.remaining :=
    Cursor.remaining_skip _ _
  fun_induction methodsFrom attrs c r generalizing result
  case case1 c r start none =>
    cases h
    exact first r
  case case2 c r start t here _ =>
    cases h
    exact Nat.le_trans (Nat.le_of_lt (Cursor.remaining_advance_lt here)) (first r)
  case case3 => simp at h
  case case4 c r start t here _ _ f r' read ih =>
    exact Nat.le_trans (ih h) (Nat.le_trans (Nat.le_of_lt (remaining_function read)) (first r))
  case case5 c r start t here _ _ _ ih =>
    have step := Cursor.remaining_advance_lt here
    exact Nat.le_trans (ih h) (Nat.le_trans (Nat.le_of_lt step) (first r))
  case case6 c r start t here _ _ _ ih =>
    have line := Cursor.remaining_skipLine start.cursor
    exact Nat.le_trans (ih h) (Nat.le_trans (Nat.le_trans line (Nat.sub_le _ _)) (first r))

theorem remaining_skippedBlock {v : Vocabulary} {block : BlockKind} {r result : Reader} {t : Token}
    (here : r.cursor.peek = some t) (h : r.skippedBlock v block = .ok result) :
    result.remaining < r.remaining := by
  have step := Cursor.remaining_advance_lt here
  have gap : r.cursor.advance.skipWhitespace.remaining ≤ r.cursor.advance.remaining :=
    Cursor.remaining_skip _ _
  unfold skippedBlock at h
  split at h
  · simp at h
  · next attrs r' read =>
    have list := remaining_attributes read
    have body : (Cursor.skipBlockFrom 0 0 r'.cursor.passed r'.cursor.rest).2.remaining ≤
        r'.cursor.remaining := Cursor.remaining_skipBlock r'.cursor
    cases h
    simp only [remaining, move] at *
    split <;> simp only [warn, note, cursor_withCursor] <;> omega

theorem remaining_memberBlock {word : String} {c : ClassDoc} {r : Reader} {t : Token}
    {result : ClassDoc × Reader} (here : r.cursor.peek = some t)
    (h : r.memberBlock word c = some (.ok result)) : result.2.remaining < r.remaining := by
  have skipped {v : Vocabulary} {block : BlockKind}
      (h : (r.skippedBlock v block).map (c, ·) = .ok result) :
      result.2.remaining < r.remaining := by
    rcases read : r.skippedBlock v block with e | r'
    · simp [read, Except.map] at h
    · rw [read] at h
      cases h
      exact remaining_skippedBlock here read
  unfold memberBlock at h
  split at h
  · simp only [Option.some.injEq] at h
    unfold propertiesBlock at h
    split at h
    · simp at h
    · next attrs r' read =>
      have header := remaining_blockHeader here read
      have rest := remaining_entries .properties false r'
      cases h
      exact Nat.lt_of_le_of_lt rest header
  · split at h
    · simp only [Option.some.injEq] at h
      unfold methodsBlock at h
      split at h
      · simp at h
      · next attrs r' read =>
        exact Nat.lt_of_le_of_lt (remaining_methodsFrom h) (remaining_blockHeader here read)
    · split at h
      · exact skipped (Option.some.inj h)
      · split at h
        · exact skipped (Option.some.inj h)
        · simp at h

/-- The members of a class up to its `end`. -/
def classBody (c : ClassDoc) (r : Reader) : Except Failure (ClassDoc × Reader) :=
  let start := r.move Cursor.skipSpacing
  match _ : start.cursor.peek with
  | none => .ok (c, start.warn start.cursor.line (.unterminatedClass c.name))
  | some t =>
    if t.isKeyword "end" then .ok (c, start.move Cursor.advance)
    else if t.kind == .comment then classBody c (start.move Cursor.advance)
    else
      match _ : if t.kind == .keyword then start.memberBlock t.text c else none with
      | some (.error e) => .error e
      | some (.ok (c', r')) => classBody c' r'
      | none =>
        classBody c ((start.warn t.line (.unexpectedToken t.describe)).move Cursor.skipLine)
termination_by r.remaining
decreasing_by
  all_goals have first : start.remaining ≤ r.remaining := Cursor.remaining_skip _ _
  · rename_i here _ _
    exact Nat.lt_of_lt_of_le (Cursor.remaining_advance_lt here) first
  · rename_i here _ _ read
    split at read
    · exact Nat.lt_of_lt_of_le (remaining_memberBlock here read) first
    · simp at read
  · rename_i here _ _ _
    have step := Cursor.remaining_advance_lt here
    rw [Cursor.remaining_advance] at step
    exact Nat.lt_of_le_of_lt (Cursor.remaining_skipLine start.cursor)
      (Nat.lt_of_lt_of_le step first)

/-- A class from its `classdef` keyword through its `end`. It takes the name `expected`, with a
warning if it declares another one; `place` is where a line of the text stands in its file. -/
def classDeclaration (place : Nat → Location) (scope expected : String) (r : Reader) :
    Except Failure (ClassDoc × Reader) :=
  let start := r.move fun c => (c.skipIf (·.isKeyword "classdef")).skipWhitespace
  match start.attributes .ofClass with
  | .error e => .error e
  | .ok (attrs, r') =>
    let c := r'.cursor.skipWhitespace
    match c.dottedName? with
    | none => .error ((r'.withCursor c).fail .missingClassName)
    | some (name, c') =>
      let named := (r'.withCursor c').checkName (some expected) c.line name
      let (bases, based) := named.superclasses
      let (trailing, c'') := based.cursor.finishLine
      let (comments, body) := c''.commentRun
      classBody
        { name := expected, scope := scope, attrs := attrs, superclasses := bases
          doc := docAfter trailing comments, location := place c.line }
        (based.withCursor body)

end Reader

end MatlabOutline
