import MatlabOutline.Proofs.LineEndings.Phrases

/-!
Faults and notes that differ only in how the texts they show end their lines, and attribute lists, which
give the same attributes and such faults and notes however lines end (`Reader.Recoded.attributes`).
-/

namespace MatlabOutline

/-- The texts are the same once each carriage return before a line feed is left out. -/
def SameText (a b : String) : Prop :=
  Text.unix a.toList = Text.unix b.toList

/-- Faults that differ at most in how the token they show ends its lines. -/
inductive Fault.Alike : Fault → Fault → Prop
  | same (f : Fault) : Alike f f
  | signature {expected : Expected} {found found' : String} : SameText found found' →
      Alike (.malformedSignature expected found) (.malformedSignature expected found')
  | attributes {expected : Expected} {found found' : String} : SameText found found' →
      Alike (.malformedAttributes expected found) (.malformedAttributes expected found')

structure FaultAt.Alike (e f : FaultAt) : Prop where
  line : e.line = f.line
  fault : e.fault.Alike f.fault

inductive Warning.Alike : Warning → Warning → Prop
  | same (w : Warning) : Alike w w
  | token {found found' : String} : SameText found found' →
      Alike (.unexpectedToken found) (.unexpectedToken found')
  | inBlock (block : BlockKind) {found found' : String} : SameText found found' →
      Alike (.unexpectedInBlock found block) (.unexpectedInBlock found' block)

inductive Note.Alike : Note → Note → Prop
  | warning (line : Nat) {w w' : Warning} : w.Alike w' → Alike (.warning line w) (.warning line w')
  | skipped (line : Nat) {token token' : String} : SameText token token' →
      Alike (.skipped line token) (.skipped line token')

abbrev NotesAlike (notes notes' : List Note) : Prop :=
  List.Forall₂ Note.Alike notes notes'

namespace Cursor

theorem found_recode (c : Cursor) : SameText c.found c.recode.found := by
  rw [SameText, found, found, peek_recode]
  cases c.peek with
  | none => rfl
  | some t => exact (t.unix_describe_recode).symm

theorem fault_recode (c : Cursor) {f g : Fault} (alike : f.Alike g) : (c.fault f).Alike (c.recode.fault g) :=
  ⟨c.line_recode.symm, alike⟩

/-- Two readings without notes: of the same thing up to the same place, or of alike faults. -/
inductive Recoded {α : Type} : Except FaultAt (α × Cursor) → Except FaultAt (α × Cursor) → Prop
  | ok (a : α) (c : Cursor) : Recoded (.ok (a, c)) (.ok (a, c.recode))
  | error {e f : FaultAt} : e.Alike f → Recoded (.error e) (.error f)

theorem recoded_malformed {α : Type} (c : Cursor) (expected : Expected) :
    Recoded (α := α) (.error (c.fault (.malformedAttributes expected c.found)))
      (.error (c.recode.fault (.malformedAttributes expected c.recode.found))) :=
  .error (c.fault_recode (.attributes c.found_recode))

theorem recoded_listFrom (items : List String) (item : String) (joined : Bool) (passed ts : List Token) :
    Recoded (listFrom items item joined passed ts)
      (listFrom items item joined (passed.map Token.recode) (ts.map Token.recode)) := by
  induction ts generalizing items item joined passed with
  | nil => exact recoded_malformed ⟨passed, []⟩ _
  | cons t r ih =>
    have rest (items : List String) (item : String) (joined : Bool) := ih items item joined (t :: passed)
    simp only [List.map_cons, listFrom, Token.isNewline_recode, Token.isPunct_recode, Token.isWhitespace_recode,
      Token.kind_recode, isString_recode, Token.isContinuation_recode] at rest ⊢
    split
    · split
      · exact rest _ _ _
      · exact recoded_malformed ⟨passed, t :: r⟩ _
    next within =>
    split
    · exact .ok _ ⟨t :: passed, r⟩
    split
    · exact rest _ _ _
    split
    · exact rest _ _ _
    next code =>
    have text : t.recode.text = t.text := by
      simp only [Bool.or_eq_true, not_or, Bool.not_eq_true] at code
      exact Token.text_recode (by simpa using within) code.2
    rw [text]
    split <;> exact rest _ _ _

theorem recoded_metaclass (c : Cursor) : Recoded c.metaclass c.recode.metaclass := by
  rw [metaclass, metaclass, dottedName?_recode]
  rcases c.dottedName? with _ | ⟨name, c'⟩
  · exact recoded_malformed c _
  · exact .ok _ c'

theorem recoded_valueList (c : Cursor) : Recoded c.valueList c.recode.valueList := by
  have list := recoded_listFrom [] "" false c.passed c.rest
  rw [valueList, valueList]
  simp only [recode]
  generalize listFrom [] "" false c.passed c.rest = here at list ⊢
  generalize listFrom [] "" false (c.passed.map Token.recode) (c.rest.map Token.recode) = there at list ⊢
  cases list with
  | ok items c' => exact .ok _ c'
  | error alike => exact .error alike

theorem recoded_attrValue (c : Cursor) : Recoded c.attrValue c.recode.attrValue := by
  rw [attrValue, attrValue, peek_recode]
  rcases c.peek with _ | t
  · exact recoded_malformed c _
  simp only [Option.map_some, isString_recode, Token.kind_recode, Token.isOperator_recode, Token.isPunct_recode,
    stringRun_recode, advance_recode, dottedName?_recode]
  split
  · exact .ok _ _
  split
  · next number =>
    rw [beq_iff_eq] at number
    rw [Token.text_recode (by simp [Token.isNewline, number]) (by simp [number])]
    exact .ok _ _
  split
  · exact recoded_metaclass _
  split
  · exact recoded_valueList _
  rcases c.dottedName? with _ | ⟨name, c'⟩
  · exact recoded_malformed c _
  · exact .ok _ _

theorem recoded_attrSetting (negated : Bool) (c : Cursor) :
    Recoded (c.attrSetting negated) (c.recode.attrSetting negated) := by
  rw [attrSetting, attrSetting, take?_recode (by simp)]
  rcases c.take? _ with _ | ⟨t, c'⟩
  · exact .ok _ _
  have value := recoded_attrValue c'.skipWhitespace
  simp only [Option.map_some, skipWhitespace_recode]
  generalize c'.skipWhitespace.attrValue = here at value ⊢
  generalize c'.skipWhitespace.recode.attrValue = there at value ⊢
  cases value with
  | ok value c'' => exact .ok _ _
  | error alike => exact .error alike

end Cursor

namespace Reader

/-- The reader at the same place of the recoded tokens, with alike notes. -/
structure Recoded (r s : Reader) : Prop where
  cursor : s.cursor = r.cursor.recode
  notes : NotesAlike r.notes s.notes

/-- Two readings: of the same thing up to the same place, or of alike faults. -/
inductive Outcome {α : Type} : Except Failure (α × Reader) → Except Failure (α × Reader) → Prop
  | ok (a : α) {r s : Reader} : r.Recoded s → Outcome (.ok (a, r)) (.ok (a, s))
  | error {e f : FaultAt} {notes notes' : List Note} : e.Alike f → NotesAlike notes notes' →
      Outcome (.error ⟨e, notes⟩) (.error ⟨f, notes'⟩)

namespace Outcome

theorem of_ok {α : Type} {a : α} {r : Reader} {y : Except Failure (α × Reader)}
    (outcome : Outcome (.ok (a, r)) y) : ∃ s, y = .ok (a, s) ∧ r.Recoded s := by
  cases outcome with
  | ok a recoded => exact ⟨_, rfl, recoded⟩

/-- A failure is passed on. -/
theorem of_error {α β : Type} {e : Failure} {y : Except Failure (α × Reader)}
    (outcome : Outcome (.error e) y) : ∃ f, y = .error f ∧ Outcome (α := β) (.error e) (.error f) := by
  cases outcome with
  | error alike notes => exact ⟨_, rfl, .error alike notes⟩

end Outcome

namespace Recoded

variable {r s : Reader} (recoded : r.Recoded s)

include recoded

theorem peek : s.cursor.peek = r.cursor.peek.map Token.recode := by
  rw [recoded.cursor, Cursor.peek_recode]

theorem withCursor (c : Cursor) : (r.withCursor c).Recoded (s.withCursor c.recode) :=
  ⟨rfl, recoded.notes⟩

theorem move {f : Cursor → Cursor} (same : ∀ c, f c.recode = (f c).recode) : (r.move f).Recoded (s.move f) :=
  ⟨by rw [Reader.move, recoded.cursor, same]; rfl, recoded.notes⟩

theorem note {n n' : Note} (alike : n.Alike n') : (r.note n).Recoded (s.note n') :=
  ⟨recoded.cursor, .cons alike recoded.notes⟩

theorem warn (line : Nat) {w w' : Warning} (alike : w.Alike w') : (r.warn line w).Recoded (s.warn line w') :=
  recoded.note (.warning line alike)

theorem fail {α : Type} {f g : Fault} (alike : f.Alike g) :
    Outcome (α := α) (.error (r.fail f)) (.error (s.fail g)) := by
  rw [Reader.fail, Reader.fail, recoded.cursor]
  exact .error (r.cursor.fault_recode alike) recoded.notes

end Recoded

@[simp] theorem isNegation_recode (t : Token) : isNegation t.recode = isNegation t := by
  simp [isNegation]

theorem Recoded.oneAttribute {r s : Reader} (recoded : r.Recoded s) (v : Vocabulary) :
    Outcome (r.oneAttribute v) (s.oneAttribute v) := by
  simp only [Reader.oneAttribute, recoded.cursor, Cursor.at?_recode isNegation_recode,
    Cursor.skipIf_recode isNegation_recode, Cursor.skipWhitespace_recode, Cursor.take?_isName_recode]
  generalize (r.cursor.skipIf isNegation).skipWhitespace = c
  rcases c.take? Cursor.isName with _ | ⟨t, c'⟩
  · exact (recoded.withCursor c).fail (.attributes c.found_recode)
  simp only [Option.map_some, Cursor.skipWhitespace_recode]
  rcases v.lookup t.text with _ | ⟨spelling, kind⟩
  · exact (recoded.withCursor c).fail (.same _)
  have setting := Cursor.recoded_attrSetting (r.cursor.at? isNegation) c'.skipWhitespace
  simp only
  generalize Cursor.attrSetting (r.cursor.at? isNegation) c'.skipWhitespace = here at setting ⊢
  generalize Cursor.attrSetting (r.cursor.at? isNegation) c'.skipWhitespace.recode = there at setting ⊢
  cases setting with
  | ok value c'' =>
    refine .ok _ ?_
    split
    · exact recoded.withCursor c''
    · rw [Cursor.line_recode]
      exact (recoded.withCursor c'').warn _ (.same _)
  | error alike => exact .error alike recoded.notes

theorem attributesFrom_eq (v : Vocabulary) (table : Table AttrValue) (r : Reader) :
    r.attributesFrom v table =
      match (r.move Cursor.skipWhitespace).cursor.take? (·.isPunct ")") with
      | some (_, c) => .ok (table, r.withCursor c)
      | none =>
        match (r.move Cursor.skipWhitespace).oneAttribute v with
        | .error e => .error e
        | .ok ((spelling, value), r') =>
          let behind := r'.move Cursor.skipWhitespace
          match behind.cursor.take? (·.isPunct ",") with
          | some (_, c) => attributesFrom v (table.insert spelling value) (behind.withCursor c)
          | none =>
            match behind.cursor.take? (·.isPunct ")") with
            | some (_, c) => .ok (table.insert spelling value, behind.withCursor c)
            | none => .error (behind.fail (.malformedAttributes .commaOrParenthesis behind.cursor.found)) := by
  rw [attributesFrom.eq_def]
  simp only
  split
  · simp [*]
  split
  · simp [*]
  next read =>
  simp only [read]
  split
  · simp [*]
  · split <;> simp [*]

theorem Recoded.attributesFrom {r s : Reader} (recoded : r.Recoded s) (v : Vocabulary)
    (table : Table AttrValue) : Outcome (r.attributesFrom v table) (s.attributesFrom v table) := by
  have taken (c : Cursor) (mark : String) := Cursor.take?_recode (p := (·.isPunct mark)) (by simp) c
  have begin {r s : Reader} (recoded : r.Recoded s) := recoded.move Cursor.skipWhitespace_recode
  fun_induction Reader.attributesFrom v table r generalizing s
  case case1 table r start t c closed =>
    rw [attributesFrom_eq v table s, (begin recoded).cursor, taken, closed]
    exact .ok _ (recoded.withCursor c)
  case case2 table r start closed e failed =>
    obtain ⟨f, there, outcome⟩ := (failed ▸ (begin recoded).oneAttribute v).of_error
    rw [attributesFrom_eq v table s, (begin recoded).cursor, taken, closed, Option.map_none, there]
    exact outcome
  case case3 table r start closed spelling value r' read behind t c comma ih =>
    obtain ⟨s', there, recoded'⟩ := (read ▸ (begin recoded).oneAttribute v).of_ok
    have further := begin recoded'
    rw [attributesFrom_eq v table s, (begin recoded).cursor, taken, closed, Option.map_none, there]
    simp only [further.cursor, taken, comma, behind, Option.map_some]
    exact ih (further.withCursor c)
  case case4 table r start closed spelling value r' read behind comma t c last =>
    obtain ⟨s', there, recoded'⟩ := (read ▸ (begin recoded).oneAttribute v).of_ok
    have further := begin recoded'
    rw [attributesFrom_eq v table s, (begin recoded).cursor, taken, closed, Option.map_none, there]
    simp only [further.cursor, taken, comma, last, behind, Option.map_some, Option.map_none]
    exact .ok _ (further.withCursor c)
  case case5 table r start closed spelling value r' read behind comma last =>
    obtain ⟨s', there, recoded'⟩ := (read ▸ (begin recoded).oneAttribute v).of_ok
    have further := begin recoded'
    rw [attributesFrom_eq v table s, (begin recoded).cursor, taken, closed, Option.map_none, there]
    simp only [further.cursor, taken, comma, last, behind, Option.map_none]
    exact further.fail (.attributes (Cursor.found_recode _))

theorem Recoded.attributes {r s : Reader} (recoded : r.Recoded s) (v : Vocabulary) :
    Outcome (r.attributes v) (s.attributes v) := by
  rw [Reader.attributes, Reader.attributes, recoded.cursor, Cursor.take?_recode (by simp)]
  rcases r.cursor.take? _ with _ | ⟨t, c⟩
  · exact .ok _ recoded
  · exact (recoded.withCursor c).attributesFrom v {}

end Reader

end MatlabOutline
