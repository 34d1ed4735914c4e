import MatlabOutline.Declaration.Function

/-!
No movement changes the run of tokens that a cursor stands in, and neither do the phrases that are
read without a failure.
-/

namespace MatlabOutline

theorem Token.line_le_endLine (t : Token) : t.line ≤ t.endLine := by
  unfold endLine
  split <;> omega

namespace Cursor

theorem tokens_take? {c c' : Cursor} {p : Token → Bool} {t : Token}
    (taken : c.take? p = some (t, c')) : c'.tokens = c.tokens := by
  rcases c with ⟨passed, _ | ⟨u, r⟩⟩
  · simp [take?] at taken
  · simp only [take?] at taken
    split at taken
    · cases taken
      simp [tokens]
    · simp at taken

/-- What is taken is the current token. -/
theorem peek_take? {c c' : Cursor} {p : Token → Bool} {t : Token}
    (taken : c.take? p = some (t, c')) : c.peek = some t ∧ p t = true := by
  rcases c with ⟨passed, _ | ⟨u, r⟩⟩
  · simp [take?] at taken
  · simp only [take?] at taken
    split at taken
    · next holds =>
      cases taken
      exact ⟨rfl, holds⟩
    · simp at taken

theorem advance_of_take? {c c' : Cursor} {p : Token → Bool} {t : Token}
    (taken : c.take? p = some (t, c')) : c.advance = c' := by
  rcases c with ⟨passed, _ | ⟨u, r⟩⟩
  · simp [take?] at taken
  · simp only [take?] at taken
    split at taken
    · cases taken
      rfl
    · simp at taken

theorem at?_of_take? {c c' : Cursor} {p : Token → Bool} {t : Token}
    (taken : c.take? p = some (t, c')) : c.at? p = true := by
  obtain ⟨here, holds⟩ := peek_take? taken
  simp [at?, here, holds]

theorem not_at?_of_take? {c : Cursor} {p : Token → Bool} (other : c.take? p = none) :
    ¬c.at? p = true := by
  rcases c with ⟨passed, _ | ⟨t, r⟩⟩
  · simp [at?, peek]
  · simpa [take?, at?, peek] using other

theorem mem_of_peek {c : Cursor} {t : Token} (here : c.peek = some t) : t ∈ c.tokens :=
  List.mem_append_right _ (List.mem_of_mem_head? here)

theorem mem_of_previous {c : Cursor} {t : Token} (before : c.previous = some t) : t ∈ c.tokens :=
  List.mem_append_left _ (List.mem_reverse.mpr (List.mem_of_mem_head? before))

/-- The line of a cursor is that of a token, unless there are none. -/
theorem line_cases (c : Cursor) : c.line = 1 ∨ ∃ t ∈ c.tokens, c.line = t.line := by
  rcases c with ⟨_ | ⟨u, passed⟩, _ | ⟨t, r⟩⟩
  · exact .inl rfl
  · exact .inr ⟨t, by simp [tokens], rfl⟩
  · exact .inr ⟨u, by simp [tokens], rfl⟩
  · exact .inr ⟨t, by simp [tokens], rfl⟩

@[simp] theorem tokens_skipIf (c : Cursor) (p : Token → Bool) : (c.skipIf p).tokens = c.tokens := by
  unfold skipIf
  split
  · next taken => exact tokens_take? taken
  · rfl

@[simp] theorem tokens_skip (c : Cursor) (p : Token → Bool) : (c.skip p).tokens = c.tokens :=
  tokens_skipFrom p false c.passed c.rest

@[simp] theorem tokens_skipWhitespace (c : Cursor) : c.skipWhitespace.tokens = c.tokens :=
  c.tokens_skip _

@[simp] theorem tokens_skipSpacing (c : Cursor) : c.skipSpacing.tokens = c.tokens :=
  c.tokens_skip _

@[simp] theorem tokens_skipSeparators (c : Cursor) : c.skipSeparators.tokens = c.tokens :=
  c.tokens_skip _

attribute [simp] tokens_advance

@[simp] theorem tokens_skipLine (c : Cursor) : c.skipLine.tokens = c.tokens := by
  have whole (passed ts : List Token) : (skipLineFrom passed ts).tokens = passed.reverse ++ ts := by
    fun_induction skipLineFrom passed ts <;> simp_all [tokens]
  exact whole c.passed c.rest

theorem tokens_dottedFrom (name : String) (passed ts : List Token) :
    (dottedFrom name passed ts).2.tokens = passed.reverse ++ ts := by
  fun_induction dottedFrom name passed ts <;> simp_all [tokens]

theorem tokens_dottedName? {c c' : Cursor} {name : String} (read : c.dottedName? = some (name, c')) :
    c'.tokens = c.tokens := by
  unfold dottedName? at read
  split at read
  · next t c₁ taken =>
    have whole := tokens_dottedFrom t.text c₁.passed c₁.rest
    rw [Option.some.inj read] at whole
    exact whole.trans (tokens_take? taken)
  · simp at read

@[simp] theorem tokens_finishLine (c : Cursor) : c.finishLine.2.tokens = c.tokens := by
  unfold finishLine
  split
  · next t c' taken => simpa using tokens_take? taken
  · simp

@[simp] theorem tokens_skipBlock (c : Cursor) : c.skipBlock.2.tokens = c.tokens := by
  have whole (inner brackets : Nat) (passed ts : List Token) :
      (skipBlockFrom inner brackets passed ts).2.tokens = passed.reverse ++ ts := by
    fun_induction skipBlockFrom inner brackets passed ts <;> simp_all [tokens]
  exact whole 0 0 c.passed c.rest

/-- A block whose `end` is missing reaches to the end of input. -/
theorem atEnd_skipBlock {c : Cursor} (missing : c.skipBlock.1 = false) :
    c.skipBlock.2.atEnd = true := by
  have reached (inner brackets : Nat) (passed ts : List Token) :
      (skipBlockFrom inner brackets passed ts).1 = false →
        (skipBlockFrom inner brackets passed ts).2.atEnd = true := by
    fun_induction skipBlockFrom inner brackets passed ts <;> simp_all [atEnd]
  exact reached 0 0 c.passed c.rest missing

@[simp] theorem tokens_commentRun (c : Cursor) : c.commentRun.2.tokens = c.tokens := by
  fun_induction commentRun c with
  | case1 c t c' taken further ih =>
    have first := tokens_take? taken
    simp only [tokens_skipIf, tokens_skipWhitespace] at ih first
    exact ih.trans first
  | case2 => rfl

@[simp] theorem tokens_stringRun (text : String) (c : Cursor) :
    (c.stringRun text).2.tokens = c.tokens := by
  fun_induction stringRun text c with
  | case1 text c t c' taken ih =>
    rw [ih, tokens_skipWhitespace, tokens_take? taken]
  | case2 => rfl

theorem tokens_sizeFrom (joined : Bool) (passed ts : List Token) :
    (sizeFrom joined passed ts).2.tokens = passed.reverse ++ ts := by
  fun_induction sizeFrom joined passed ts <;> simp_all [tokens]

@[simp] theorem tokens_validators (c : Cursor) : c.validators.2.tokens = c.tokens := by
  have whole (current : String) (depth : Nat) (passed ts : List Token) :
      (validatorsFrom current depth passed ts).2.tokens = passed.reverse ++ ts := by
    fun_induction validatorsFrom current depth passed ts <;> simp_all [tokens]
  exact whole "" 0 c.passed c.rest

theorem tokens_defaultFrom (depth : Nat) (c : Cursor) : (defaultFrom depth c).2.tokens = c.tokens := by
  fun_induction defaultFrom depth c <;> simp_all

@[simp] theorem tokens_entryName (dotted : Bool) (c : Cursor) :
    (c.entryName dotted).2.tokens = c.tokens := by
  unfold entryName
  split
  · rcases read : c.dottedName? with _ | ⟨name, c'⟩
    · rfl
    · exact tokens_dottedName? read
  · split
    · next t c' taken => exact tokens_take? taken
    · rfl

@[simp] theorem tokens_entryType (c : Cursor) : c.entryType.2.tokens = c.tokens := by
  unfold entryType
  split
  · next name c' read => simpa using tokens_dottedName? read
  · rfl

@[simp] theorem tokens_entryValidators (c : Cursor) : c.entryValidators.2.tokens = c.tokens := by
  unfold entryValidators
  split
  · next t c' opened => simpa using tokens_take? opened
  · rfl

@[simp] theorem tokens_entryDefault (c : Cursor) : c.entryDefault.2.tokens = c.tokens := by
  unfold entryDefault
  split
  · next t c' marked => simpa [defaultText, tokens_defaultFrom] using tokens_take? marked
  · rfl

end Cursor

namespace Reader

@[simp] theorem tokens_entrySize (name : String) (r : Reader) :
    (r.entrySize name).2.cursor.tokens = r.cursor.tokens := by
  unfold entrySize
  split
  · rfl
  · next t c opened =>
    have size := Cursor.tokens_sizeFrom false c.passed c.rest
    have inside : c.passed.reverse ++ c.rest = r.cursor.tokens := Cursor.tokens_take? opened
    split
    · next read =>
      rw [read, inside] at size
      exact (Cursor.tokens_skipWhitespace _).trans size
    · next read =>
      rw [read, inside] at size
      exact (Cursor.tokens_skipWhitespace _).trans size

@[simp] theorem tokens_entry (dotted : Bool) (r : Reader) :
    (r.entry dotted).2.cursor.tokens = r.cursor.tokens := by
  unfold entry
  simp only [cursor_withCursor]
  generalize sized : (r.withCursor (r.cursor.entryName dotted).2.skipWhitespace).entrySize
    (r.cursor.entryName dotted).1 = size
  have value : size.2.cursor.entryType.2.entryValidators.2.entryDefault.2.skipSeparators.tokens =
      r.cursor.tokens := by simp [← sized]
  generalize size.2.cursor.entryType.2.entryValidators.2.entryDefault.2.skipSeparators = c at value ⊢
  rcases comment : c.take? Token.isRemark with _ | ⟨t, c'⟩
  · exact value
  · exact (Cursor.tokens_take? comment).trans value

end Reader

end MatlabOutline
