import MatlabOutline.Attribute.Vocabulary
import MatlabOutline.Declaration.Reader
import MatlabOutline.Table

/-!
Attribute lists such as `(Access = private, ~Hidden)`, read against a vocabulary.
-/

namespace MatlabOutline

/-- Reads each doubled quote, from the left, as one. -/
def undouble (quote : Char) : List Char → List Char
  | a :: b :: r =>
    if a = quote ∧ b = quote then quote :: undouble quote r else a :: undouble quote (b :: r)
  | cs => cs

/-- The content of a quoted string, which may lack its closing quote. -/
def unquoteChars : List Char → List Char
  | [] => []
  | quote :: inner =>
    undouble quote (if inner.getLast? = some quote then inner.dropLast else inner)

def unquote (s : String) : String :=
  String.ofList (unquoteChars s.toList)

namespace Cursor

def isString (t : Token) : Bool :=
  t.kind == .string

/-- Successive strings on a line, which make one text after `text`. -/
def stringRun (text : String) (c : Cursor) : String × Cursor :=
  match _ : c.take? isString with
  | some (t, c') => stringRun (text ++ unquote t.text) c'.skipWhitespace
  | none => (text, c)
termination_by c.remaining
decreasing_by
  rename_i taken
  exact Nat.lt_of_le_of_lt (remaining_skip _ _) (remaining_take? taken)

/-- Ends the current item of a list, unless it is empty. -/
def endItem (items : List String) (item : String) : List String :=
  if item.isEmpty then items else items ++ [item]

/-- The items of a list up to its closing brace, after `items` and the text `item` of the next
one; `joined` says that a continuation marker comes right before. Commas and white space separate
items, and a string item loses its quotes. -/
def listFrom (items : List String) (item : String) (joined : Bool) (passed : List Token) :
    List Token → Except FaultAt (List String × Cursor)
  | [] =>
    let c : Cursor := ⟨passed, []⟩
    .error (c.fault (.malformedAttributes .closingBrace c.found))
  | t :: r =>
    if t.isNewline then
      if joined then listFrom items item false (t :: passed) r
      else
        let c : Cursor := ⟨passed, t :: r⟩
        .error (c.fault (.malformedAttributes .closingBrace c.found))
    else if t.isPunct "\x7d" then .ok (endItem items item, ⟨t :: passed, r⟩)
    else if t.isPunct "," then listFrom (endItem items item) "" false (t :: passed) r
    else if t.isWhitespace || t.kind == .comment then
      listFrom (endItem items item) "" t.isContinuation (t :: passed) r
    else if isString t then listFrom items (item ++ unquote t.text) false (t :: passed) r
    else listFrom items (item ++ t.text) false (t :: passed) r

/-- The value that a dotted name stands for. -/
def valueOfName (name : String) : AttrValue :=
  if name = "true" then .bool true else if name = "false" then .bool false else .name name

def valueFault (c : Cursor) : FaultAt :=
  c.fault (.malformedAttributes .attributeValue c.found)

/-- A metaclass, whose `?` has been passed. -/
def metaclass (c : Cursor) : Except FaultAt (AttrValue × Cursor) :=
  match c.dottedName? with
  | some (name, c') => .ok (.name ("?" ++ name), c')
  | none => .error (c.fault (.malformedAttributes .className c.found))

/-- A list, whose opening brace has been passed. -/
def valueList (c : Cursor) : Except FaultAt (AttrValue × Cursor) :=
  match listFrom [] "" false c.passed c.rest with
  | .ok (items, c') => .ok (.list items, c')
  | .error e => .error e

/-- The value of an attribute. -/
def attrValue (c : Cursor) : Except FaultAt (AttrValue × Cursor) :=
  match c.peek with
  | none => .error c.valueFault
  | some t =>
    if isString t then .ok (.string (c.stringRun "").1, (c.stringRun "").2)
    else if t.kind == .number then .ok (.name t.text, c.advance)
    else if t.isOperator "?" then c.advance.metaclass
    else if t.isPunct "\x7b" then c.advance.valueList
    else match c.dottedName? with
      | some (name, c') => .ok (valueOfName name, c')
      | none => .error c.valueFault

/-- Inverts a logical value. -/
def negate : AttrValue → AttrValue
  | .bool b => .bool (!b)
  | value => value

/-- What stands behind the name of an attribute: `=` and a value, or nothing, which means true. -/
def attrSetting (negated : Bool) (c : Cursor) : Except FaultAt (AttrValue × Cursor) :=
  match c.take? (·.isOperator "=") with
  | none => .ok (.bool (!negated), c)
  | some (_, c') =>
    match c'.skipWhitespace.attrValue with
    | .ok (value, c'') => .ok (if negated then negate value else value, c'')
    | .error e => .error e

theorem remaining_stringRun (text : String) (c : Cursor) :
    (c.stringRun text).2.remaining ≤ c.remaining := by
  fun_induction stringRun text c with
  | case1 text c t c' taken ih =>
    have first := remaining_take? taken
    have gap : c'.skipWhitespace.remaining ≤ c'.remaining := remaining_skip _ _
    omega
  | case2 => exact Nat.le_refl _

theorem remaining_listFrom {items : List String} {item : String} {joined : Bool}
    {passed ts : List Token} {result : List String × Cursor}
    (h : listFrom items item joined passed ts = .ok result) :
    result.2.remaining ≤ ts.length := by
  fun_induction listFrom items item joined passed ts generalizing result
  case case1 => simp at h
  case case3 => simp at h
  case case4 =>
    cases h
    simp [remaining]
  all_goals
    next ih =>
      have shorter := ih h
      simp only [List.length_cons]
      omega

theorem remaining_metaclass {c : Cursor} {result : AttrValue × Cursor}
    (h : c.metaclass = .ok result) : result.2.remaining ≤ c.remaining := by
  unfold metaclass at h
  split at h
  · next name c' named =>
    cases h
    exact Nat.le_of_lt (remaining_dottedName? named)
  · simp at h

theorem remaining_valueList {c : Cursor} {result : AttrValue × Cursor}
    (h : c.valueList = .ok result) : result.2.remaining ≤ c.remaining := by
  unfold valueList at h
  split at h
  · next items c' listed =>
    cases h
    exact remaining_listFrom listed
  · simp at h

theorem remaining_attrValue {c : Cursor} {result : AttrValue × Cursor}
    (h : c.attrValue = .ok result) : result.2.remaining ≤ c.remaining := by
  have step : c.advance.remaining ≤ c.remaining := by
    rw [remaining_advance]
    exact Nat.sub_le _ _
  unfold attrValue at h
  split at h
  · simp at h
  · split at h
    · cases h
      exact remaining_stringRun "" c
    · split at h
      · cases h
        exact step
      · split at h
        · exact Nat.le_trans (remaining_metaclass h) step
        · split at h
          · exact Nat.le_trans (remaining_valueList h) step
          · split at h
            · next name c' named =>
              cases h
              exact Nat.le_of_lt (remaining_dottedName? named)
            · simp at h

theorem remaining_attrSetting {negated : Bool} {c : Cursor} {result : AttrValue × Cursor}
    (h : c.attrSetting negated = .ok result) : result.2.remaining ≤ c.remaining := by
  unfold attrSetting at h
  split at h
  · cases h
    exact Nat.le_refl _
  · next t c' taken =>
    have mark := remaining_take? taken
    have gap : c'.skipWhitespace.remaining ≤ c'.remaining := remaining_skip _ _
    split at h
    · next value c'' read =>
      cases h
      have rest := remaining_attrValue read
      simp only at rest ⊢
      omega
    · simp at h

end Cursor

namespace Reader

def isNegation (t : Token) : Bool :=
  t.isOperator "~" || t.isOperator "!"

/-- One attribute under its spelling in the vocabulary. A value that its kind does not accept is
kept, with a warning. -/
def oneAttribute (v : Vocabulary) (r : Reader) : Except Failure ((String × AttrValue) × Reader) :=
  let negated := r.cursor.at? isNegation
  let c := (r.cursor.skipIf isNegation).skipWhitespace
  match c.take? Cursor.isName with
  | none => .error ((r.withCursor c).fail (.malformedAttributes .attributeName c.found))
  | some (t, c') =>
    match v.lookup t.text with
    | none => .error ((r.withCursor c).fail (.unknownAttribute v.name t.text))
    | some (spelling, kind) =>
      match c'.skipWhitespace.attrSetting negated with
      | .error e => .error ⟨e, r.notes⟩
      | .ok (value, c'') =>
        let r' := r.withCursor c''
        .ok ((spelling, value),
          if kind.accepts value then r' else r'.warn c.line (.attributeKind spelling kind value))

theorem remaining_oneAttribute {v : Vocabulary} {r : Reader}
    {result : (String × AttrValue) × Reader} (h : r.oneAttribute v = .ok result) :
    result.2.remaining < r.remaining := by
  have sign := Cursor.remaining_skipIf r.cursor isNegation
  have gap : (r.cursor.skipIf isNegation).skipWhitespace.remaining ≤
      (r.cursor.skipIf isNegation).remaining := Cursor.remaining_skip _ _
  unfold oneAttribute at h
  simp only at h
  split at h
  · simp at h
  · next t c' taken =>
    have name := Cursor.remaining_take? taken
    have inner : c'.skipWhitespace.remaining ≤ c'.remaining := Cursor.remaining_skip _ _
    split at h
    · simp at h
    · split at h
      · simp at h
      · next value c'' read =>
        have setting := Cursor.remaining_attrSetting read
        cases h
        simp only [remaining] at *
        split <;> simp only [withCursor, warn, note] <;> omega

/-- The attributes up to the closing parenthesis, after those in `table`. -/
def attributesFrom (v : Vocabulary) (table : Table AttrValue) (r : Reader) :
    Except Failure (Table AttrValue × Reader) :=
  let start := r.move Cursor.skipWhitespace
  match start.cursor.take? (·.isPunct ")") with
  | some (_, c) => .ok (table, r.withCursor c)
  | none =>
    match _ : start.oneAttribute v with
    | .error e => .error e
    | .ok ((spelling, value), r') =>
      let behind := r'.move Cursor.skipWhitespace
      match _ : behind.cursor.take? (·.isPunct ",") with
      | some (_, c) => attributesFrom v (table.insert spelling value) (behind.withCursor c)
      | none =>
        match behind.cursor.take? (·.isPunct ")") with
        | some (_, c) => .ok (table.insert spelling value, behind.withCursor c)
        | none =>
          .error (behind.fail (.malformedAttributes .commaOrParenthesis behind.cursor.found))
termination_by r.remaining
decreasing_by
  rename_i read _ comma
  have first : start.remaining ≤ r.remaining := Cursor.remaining_skip _ _
  have item := remaining_oneAttribute read
  have gap : behind.remaining ≤ r'.remaining := Cursor.remaining_skip _ _
  have mark := Cursor.remaining_take? comma
  simp only [remaining, cursor_withCursor] at *
  omega

/-- A parenthesized attribute list, if there is one. -/
def attributes (v : Vocabulary) (r : Reader) : Except Failure (Table AttrValue × Reader) :=
  match r.cursor.take? (·.isPunct "(") with
  | some (_, c) => attributesFrom v {} (r.withCursor c)
  | none => .ok ({}, r)

theorem remaining_attributesFrom {v : Vocabulary} {table : Table AttrValue} {r : Reader}
    {result : Table AttrValue × Reader} (h : r.attributesFrom v table = .ok result) :
    result.2.remaining ≤ r.remaining := by
  fun_induction attributesFrom v table r generalizing result with
  | case1 table r start _ c =>
    rename_i closed
    have first : start.remaining ≤ r.remaining := Cursor.remaining_skip _ _
    have mark := Cursor.remaining_take? closed
    cases h
    simp only [remaining, cursor_withCursor] at *
    omega
  | case2 => simp at h
  | case3 table r start _ spelling value r' read behind _ c comma =>
    rename_i ih
    have first : start.remaining ≤ r.remaining := Cursor.remaining_skip _ _
    have item := remaining_oneAttribute read
    have gap : behind.remaining ≤ r'.remaining := Cursor.remaining_skip _ _
    have mark := Cursor.remaining_take? comma
    have rest := ih h
    simp only [remaining, cursor_withCursor] at *
    omega
  | case4 table r start _ spelling value r' read behind _ _ c =>
    rename_i closed
    have first : start.remaining ≤ r.remaining := Cursor.remaining_skip _ _
    have item := remaining_oneAttribute read
    have gap : behind.remaining ≤ r'.remaining := Cursor.remaining_skip _ _
    have mark := Cursor.remaining_take? closed
    cases h
    simp only [remaining, cursor_withCursor] at *
    omega
  | case5 => simp at h

theorem remaining_attributes {v : Vocabulary} {r : Reader} {result : Table AttrValue × Reader}
    (h : r.attributes v = .ok result) : result.2.remaining ≤ r.remaining := by
  unfold attributes at h
  split at h
  · next t c opened =>
    have mark := Cursor.remaining_take? opened
    have items := remaining_attributesFrom h
    simp only [remaining, cursor_withCursor] at *
    omega
  · cases h
    exact Nat.le_refl _

end Reader

end MatlabOutline
