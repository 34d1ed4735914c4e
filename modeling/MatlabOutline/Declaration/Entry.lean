import MatlabOutline.Declaration.Reader
import MatlabOutline.Entity.Basic
import MatlabOutline.Text.Numeral

/-!
Entries of `properties` and `arguments` blocks. Both have one grammar:
a name, then optionally a size in parentheses, a type, validators in braces, and `=` with a
default value.
-/

namespace MatlabOutline

structure Entry where
  name : String
  firstLine : Nat
  lastLine : Nat
  spec : ValueSpec
  /-- The comment that ends the last line. -/
  trailing : Option Token
deriving DecidableEq, Repr

namespace Cursor

/-- The dimensions of a size up to its closing parenthesis, or none if anything but whole numbers,
`:` and commas occurs; `joined` says that a continuation marker comes right before. -/
def sizeFrom (joined : Bool) (passed : List Token) :
    List Token → Option (List Dimension) × Cursor
  | [] => (none, ⟨passed, []⟩)
  | t :: r =>
    if t.isPunct ")" then (some [], ⟨t :: passed, r⟩)
    else if t.isNewline && !joined then (none, ⟨passed, t :: r⟩)
    else
      let (dims, c) := sizeFrom t.isContinuation (t :: passed) r
      if t.isSpacing || t.isContinuation || t.isPunct "," then (dims, c)
      else if t.isOperator ":" then (dims.map (.any :: ·), c)
      else if t.kind == .number then
        match Numeral.word? t.text with
        | some n => (dims.map (.fixed n :: ·), c)
        | none => (none, c)
      else (none, c)

/-- The texts between the commas of a validator list, up to its closing brace, where `current` is
the text since the last comma and `depth` brackets are open. -/
def validatorsFrom (current : String) (depth : Nat) (passed : List Token) :
    List Token → List String × Cursor
  | [] => ([current], ⟨passed, []⟩)
  | t :: r =>
    if t.isNewline then
      if depth = 0 then ([current], ⟨passed, t :: r⟩)
      else validatorsFrom (current ++ " ") depth (t :: passed) r
    else if t.isCloseBracket then
      match depth with
      | 0 => ([current], ⟨t :: passed, r⟩)
      | outer + 1 => validatorsFrom (current ++ t.text) outer (t :: passed) r
    else if t.isPunct "," && depth == 0 then
      let (further, c) := validatorsFrom "" depth (t :: passed) r
      (current :: further, c)
    else if t.isOpenBracket then validatorsFrom (current ++ t.text) (depth + 1) (t :: passed) r
    else if t.kind == .comment then validatorsFrom current depth (t :: passed) r
    else validatorsFrom (current ++ t.text) depth (t :: passed) r

/-- The validators of a list whose opening brace has been passed. -/
def validators (c : Cursor) : List String × Cursor :=
  let (texts, c') := validatorsFrom "" 0 c.passed c.rest
  let trimmed := texts.map fun s => String.ofList (Text.trim s.toList)
  (trimmed.filter (!·.isEmpty), c')

/-- Whether a token ends a default value that no bracket holds open. -/
def endsDefault (t : Token) : Bool :=
  t.isNewline || t.kind == .comment || t.isPunct ";" || t.isPunct ","

/-- What a token inside a default value contributes to its text. -/
def defaultPiece (t : Token) : String :=
  if t.isNewline then "\n" else if t.kind == .comment then "" else t.text

def bracketDepth (depth : Nat) (t : Token) : Nat :=
  if t.isOpenBracket then depth + 1 else if t.isCloseBracket then depth - 1 else depth

theorem remaining_skipWhitespace_lt {c : Cursor} {t : Token} (h : c.peek = some t)
    (marker : t.isContinuation = true) : c.skipWhitespace.remaining < c.remaining := by
  rcases c with ⟨passed, _ | ⟨u, r⟩⟩
  · simp [peek] at h
  · simp only [peek, List.head?_cons, Option.some.injEq] at h
    subst h
    have more (joined : Bool) := remaining_skipFrom Token.isWhitespace joined (u :: passed) r
    simp only [skipWhitespace, skip, skipFrom, marker, Bool.false_and, Bool.or_false, if_true]
    split
    · exact Nat.lt_succ_of_le (more false)
    · exact Nat.lt_succ_of_le (more true)

/-- The text of a default value. It ends at a line end, `;`, `,` or comment outside brackets;
inside brackets line ends are kept and comments dropped. -/
def defaultFrom (depth : Nat) (c : Cursor) : String × Cursor :=
  match _ : c.peek with
  | none => ("", c)
  | some t =>
    if t.isContinuation then defaultFrom depth c.skipWhitespace
    else if depth == 0 && endsDefault t then ("", c)
    else
      let (text, c') := defaultFrom (bracketDepth depth t) c.advance
      (defaultPiece t ++ text, c')
termination_by c.remaining
decreasing_by
  · rename_i here marker
    exact remaining_skipWhitespace_lt here marker
  · rename_i here _ _
    exact remaining_advance_lt here

/-- The trimmed text of a default value, unless nothing is left of it. -/
def defaultText (c : Cursor) : Option String × Cursor :=
  let (text, c') := defaultFrom 0 c
  let trimmed := String.ofList (Text.trim text.toList)
  (if trimmed.isEmpty then none else some trimmed, c')

/-- The name of an entry, which may be dotted where `dotted` holds. -/
def entryName (dotted : Bool) (c : Cursor) : String × Cursor :=
  if dotted then c.dottedName?.getD ("", c)
  else match c.take? isName with
    | some (t, c') => (t.text, c')
    | none => ("", c)

/-- An optional type name, and the white space behind it. -/
def entryType (c : Cursor) : Option String × Cursor :=
  match c.dottedName? with
  | some (name, c') => (some name, c'.skipWhitespace)
  | none => (none, c)

/-- An optional validator list, and the white space behind it. -/
def entryValidators (c : Cursor) : Option (List String) × Cursor :=
  match c.take? (·.isPunct "\x7b") with
  | some (_, c') => (some c'.validators.1, c'.validators.2.skipWhitespace)
  | none => (none, c)

/-- An optional default value. -/
def entryDefault (c : Cursor) : Option String × Cursor :=
  match c.take? (·.isOperator "=") with
  | some (_, c') => c'.skipWhitespace.defaultText
  | none => (none, c)

theorem remaining_sizeFrom (joined : Bool) (passed ts : List Token) :
    (sizeFrom joined passed ts).2.remaining ≤ ts.length := by
  fun_induction sizeFrom joined passed ts <;> simp_all [remaining] <;> omega

theorem remaining_validators (c : Cursor) : c.validators.2.remaining ≤ c.remaining := by
  have bound (current : String) (depth : Nat) (passed ts : List Token) :
      (validatorsFrom current depth passed ts).2.remaining ≤ ts.length := by
    fun_induction validatorsFrom current depth passed ts <;> simp_all [remaining] <;> omega
  exact bound _ _ _ _

theorem remaining_defaultFrom (depth : Nat) (c : Cursor) :
    (defaultFrom depth c).2.remaining ≤ c.remaining := by
  fun_induction defaultFrom depth c with
  | case1 => exact Nat.le_refl _
  | case2 depth c t here marker ih =>
    exact Nat.le_trans ih (Nat.le_of_lt (remaining_skipWhitespace_lt here marker))
  | case3 => exact Nat.le_refl _
  | case4 depth c t here _ _ text c' read ih =>
    have step := remaining_advance_lt here
    rw [read] at ih
    exact Nat.le_trans ih (Nat.le_of_lt step)

theorem remaining_entryName (dotted : Bool) {c : Cursor} (h : c.at? isName = true) :
    (c.entryName dotted).2.remaining < c.remaining := by
  rcases c with ⟨passed, _ | ⟨t, r⟩⟩
  · simp [at?, peek] at h
  · have name : isName t = true := by simpa [at?, peek] using h
    unfold entryName
    split
    · have first : (⟨passed, t :: r⟩ : Cursor).dottedName? =
          some (dottedFrom t.text (t :: passed) r) := by
        simp [dottedName?, take?, name]
      rw [first]
      exact remaining_dottedName? first
    · simp [take?, name, remaining]

theorem remaining_entryType (c : Cursor) : c.entryType.2.remaining ≤ c.remaining := by
  unfold entryType
  split
  · next name c' read =>
    have first := remaining_dottedName? read
    have gap : c'.skipWhitespace.remaining ≤ c'.remaining := remaining_skip _ _
    simp only
    omega
  · exact Nat.le_refl _

theorem remaining_entryValidators (c : Cursor) :
    c.entryValidators.2.remaining ≤ c.remaining := by
  unfold entryValidators
  split
  · next t c' opened =>
    have first := remaining_take? opened
    have list := remaining_validators c'
    have gap : c'.validators.2.skipWhitespace.remaining ≤ c'.validators.2.remaining :=
      remaining_skip _ _
    simp only
    omega
  · exact Nat.le_refl _

theorem remaining_entryDefault (c : Cursor) : c.entryDefault.2.remaining ≤ c.remaining := by
  unfold entryDefault
  split
  · next t c' marked =>
    have first := remaining_take? marked
    have gap : c'.skipWhitespace.remaining ≤ c'.remaining := remaining_skip _ _
    have text := remaining_defaultFrom 0 c'.skipWhitespace
    simp only [defaultText]
    omega
  · exact Nat.le_refl _

end Cursor

namespace Reader

/-- An optional size of the entry `name`, and the white space behind it. A size that cannot be
read is left out, with a warning. -/
def entrySize (name : String) (r : Reader) : Option (List Dimension) × Reader :=
  match r.cursor.take? (·.isPunct "(") with
  | none => (none, r)
  | some (_, c) =>
    match Cursor.sizeFrom false c.passed c.rest with
    | (some (d :: dims), c') => (some (d :: dims), r.withCursor c'.skipWhitespace)
    | (_, c') =>
      (none, (r.withCursor c'.skipWhitespace).warn r.cursor.line (.invalidSize name))

/-- One entry, up to its line end. -/
def entry (dotted : Bool) (r : Reader) : Entry × Reader :=
  let name := r.cursor.entryName dotted
  let size := (r.withCursor name.2.skipWhitespace).entrySize name.1
  let type := size.2.cursor.entryType
  let checks := type.2.entryValidators
  let value := checks.2.entryDefault
  let behind := value.2.skipSeparators
  let comment := behind.take? Token.isRemark
  ({ name := name.1
     firstLine := r.cursor.line
     lastLine := (value.2.previous.map Token.endLine).getD r.cursor.line
     spec :=
      { size := size.1, typeName := type.1, validators := checks.1, default := value.1 }
     trailing := comment.map Prod.fst },
    size.2.withCursor ((comment.map Prod.snd).getD behind))

theorem remaining_entrySize (name : String) (r : Reader) :
    (r.entrySize name).2.remaining ≤ r.remaining := by
  unfold entrySize
  split
  · exact Nat.le_refl _
  · next t c opened =>
    have first := Cursor.remaining_take? opened
    have size := Cursor.remaining_sizeFrom false c.passed c.rest
    have gap (c' : Cursor) : c'.skipWhitespace.remaining ≤ c'.remaining :=
      Cursor.remaining_skip _ _
    split
    · next d dims c' read =>
      rw [read] at size
      have := gap c'
      simp only [remaining, cursor_withCursor, Cursor.remaining] at *
      omega
    · next c' _ read =>
      rw [read] at size
      have := gap c'
      simp only [remaining, warn, note, cursor_withCursor, Cursor.remaining] at *
      omega

theorem remaining_entry {dotted : Bool} {r : Reader} (h : r.cursor.at? Cursor.isName = true) :
    (r.entry dotted).2.remaining < r.remaining := by
  have name := Cursor.remaining_entryName dotted h
  have gap : (r.cursor.entryName dotted).2.skipWhitespace.remaining ≤
      (r.cursor.entryName dotted).2.remaining := Cursor.remaining_skip _ _
  have size := remaining_entrySize (r.cursor.entryName dotted).1
    (r.withCursor (r.cursor.entryName dotted).2.skipWhitespace)
  simp only [remaining_withCursor] at size
  unfold entry
  simp only [remaining_withCursor]
  generalize ((r.withCursor (r.cursor.entryName dotted).2.skipWhitespace).entrySize
    (r.cursor.entryName dotted).1) = sized at size ⊢
  have type := Cursor.remaining_entryType sized.2.cursor
  have checks := Cursor.remaining_entryValidators sized.2.cursor.entryType.2
  have value := Cursor.remaining_entryDefault sized.2.cursor.entryType.2.entryValidators.2
  generalize sized.2.cursor.entryType.2.entryValidators.2.entryDefault.2 = c at value ⊢
  have behind : c.skipSeparators.remaining ≤ c.remaining := Cursor.remaining_skip _ _
  simp only [remaining] at size ⊢
  rcases comment : c.skipSeparators.take? Token.isRemark with _ | ⟨t, c'⟩
  · simp only [Option.map_none, Option.getD_none]
    omega
  · have taken := Cursor.remaining_take? comment
    simp only [Option.map_some, Option.getD_some]
    omega

end Reader

end MatlabOutline
