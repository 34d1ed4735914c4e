import MatlabOutline.Proofs.Reports.Run
import MatlabOutline.Proofs.Reports.Sightings

/-!
The phrases that functions and classes share are read with the notes and the fault of their
sightings, and what each of these tells is so at its place.
-/

namespace MatlabOutline

/-- The declared name `name` begins at the cursor. -/
def Cursor.Declares (c : Cursor) (name : String) : Prop :=
  (∃ t, c.peek = some t ∧ t.kind = .nameFunction ∧ t.text = name) ∨
    ∃ c', c.dottedName? = some (name, c')

/-- What a warning says of the cursor is so. -/
def Warning.Concerns (c : Cursor) : Warning → Prop
  | nameMismatch declared _ => c.Declares declared
  | attributeKind name expected _ =>
    ∃ t v, c.peek = some t ∧ Vocabulary.lookup v t.text = some (name, expected)
  | unexpectedToken found => c.found = found
  | unexpectedInBlock found _ => c.found = found
  | invalidSize _ => c.at? (·.isPunct "(") = true
  | unterminatedBlock _ => c.atEnd = true
  | unterminatedClass _ => c.atEnd = true

def Fault.Concerns (c : Cursor) : Fault → Prop
  | missingFunctionName => ∀ t, c.peek = some t → t.isNewline = true ∨ t.kind = .comment
  | missingClassName => c.dottedName? = none
  | malformedSignature _ found => c.found = found
  | unknownAttribute vocabulary name =>
    ∃ t v, c.peek = some t ∧ t.text = name ∧ Vocabulary.name v = vocabulary ∧ v.lookup name = none
  | malformedAttributes _ found => c.found = found

def Matter.Concerns (c : Cursor) : Matter → Prop
  | warning cause => cause.Concerns c
  | skipped => c.atEnd = false
  | fault f => f.Concerns c

/-- The place is in the run, and what is told is so there. -/
structure Sighting.Holds (run : List Token) (s : Sighting) : Prop where
  inside : s.site.tokens = run
  concerns : s.matter.Concerns s.site

theorem Sighting.note?_of_fault? {s : Sighting} {e : FaultAt} (fault : s.fault? = some e) :
    s.note? = none := by
  rcases s with ⟨c, cause | _ | f⟩
  · simp [fault?] at fault
  · simp [fault?] at fault
  · rfl

/-- Reading on from `r` to `r'` comes upon `seen` and on no fault. -/
structure Reader.Reaches (r : Reader) (seen : List Sighting) (r' : Reader) : Prop where
  run : r'.cursor.tokens = r.cursor.tokens
  notes : r'.notes = (r.tell seen).notes
  faults : seen.filterMap Sighting.fault? = []
  holds : ∀ s ∈ seen, s.Holds r.cursor.tokens

/-- Reading on from `r` comes upon `seen`, of which the fault is that of `f`. -/
structure Reader.Fails (r : Reader) (seen : List Sighting) (f : Failure) : Prop where
  notes : f.notes = (r.tell seen).notes
  faults : seen.filterMap Sighting.fault? = [f.error]
  holds : ∀ s ∈ seen, s.Holds r.cursor.tokens

/-- Reading on from `r` comes upon `seen`. -/
def Reader.Sees {α : Type} (r : Reader) (seen : List Sighting) : Except Failure (α × Reader) → Prop
  | .ok (_, r') => r.Reaches seen r'
  | .error f => r.Fails seen f

/-- What is read without notes ends in the run, or fails with the fault of `s`. -/
def Cursor.Ends {α : Type} (run : List Token) (s : Sighting) : Except FaultAt (α × Cursor) → Prop
  | .ok (_, c) => c.tokens = run
  | .error e => s.fault? = some e ∧ s.Holds run

namespace Cursor

theorem found_of_peek {c : Cursor} {t : Token} (here : c.peek = some t) : c.found = t.describe := by
  rw [found, here, describe]

theorem line_of_peek {c : Cursor} {t : Token} (here : c.peek = some t) : c.line = t.line := by
  rcases c with ⟨passed, _ | ⟨u, r⟩⟩
  · simp [peek] at here
  · obtain rfl : u = t := by simpa [peek] using here
    rfl

theorem atEnd_of_peek {c : Cursor} (nothing : c.peek = none) : c.atEnd = true := by
  simpa [peek, atEnd] using nothing

theorem not_atEnd_of_peek {c : Cursor} {t : Token} (here : c.peek = some t) : c.atEnd = false := by
  rcases c with ⟨passed, _ | ⟨u, r⟩⟩
  · simp [peek] at here
  · rfl

theorem ends_lacks {α : Type} (c : Cursor) (expected : Expected) :
    Ends (α := α) c.tokens (c.lacks expected)
      (.error (c.fault (.malformedAttributes expected c.found))) :=
  ⟨rfl, rfl, rfl⟩

theorem ends_breaks {α : Type} (c : Cursor) (expected : Expected) :
    Ends (α := α) c.tokens (c.breaks expected)
      (.error (c.fault (.malformedSignature expected c.found))) :=
  ⟨rfl, rfl, rfl⟩

theorem ends_listFrom (items : List String) (item : String) (joined : Bool) (passed ts : List Token) :
    Ends (passed.reverse ++ ts) ((lineStop joined passed ts).lacks .closingBrace)
      (listFrom items item joined passed ts) := by
  have unmarked {t : Token} (kind : t.kind ≠ .comment) : t.isContinuation = false := by
    simp [Token.isContinuation, kind]
  have comma {t : Token} (mark : t.isPunct "," = true) : t.kind ≠ .comment := by
    intro comment
    simp [Token.isPunct, Token.is, comment] at mark
  fun_induction listFrom items item joined passed ts
  case case1 c => exact c.ends_lacks .closingBrace
  case case2 items item passed t r newline ih =>
    have kind : t.kind ≠ .comment := by simp_all [Token.isNewline]
    simpa [lineStop, unmarked kind] using ih
  case case3 items item joined passed t r newline unjoined c =>
    have stop : lineStop joined passed (t :: r) = c := by simp [lineStop, newline, unjoined, c]
    rw [stop]
    exact c.ends_lacks .closingBrace
  case case4 => simp [Ends, tokens]
  case case5 items item joined passed t r other _ mark ih =>
    simpa [lineStop, other, unmarked (comma mark)] using ih
  case case6 items item joined passed t r other _ _ blank ih => simpa [lineStop, other] using ih
  case case7 items item joined passed t r other _ _ blank quoted ih =>
    have kind : t.kind ≠ .comment := by simp_all
    simpa [lineStop, other, unmarked kind] using ih
  case case8 items item joined passed t r other _ _ blank _ ih =>
    have kind : t.kind ≠ .comment := by simp_all
    simpa [lineStop, other, unmarked kind] using ih

theorem ends_metaclass (c : Cursor) : Ends c.tokens (c.lacks .className) c.metaclass := by
  unfold metaclass
  split
  · next name c' read => exact tokens_dottedName? read
  · exact c.ends_lacks .className

theorem ends_valueList (c : Cursor) :
    Ends c.tokens ((lineStop false c.passed c.rest).lacks .closingBrace) c.valueList := by
  have list := ends_listFrom [] "" false c.passed c.rest
  unfold valueList
  split
  · next items c' read =>
    rw [read] at list
    exact list
  · next e read =>
    rw [read] at list
    exact list

theorem ends_attrValue (c : Cursor) : Ends c.tokens c.valueSighting c.attrValue := by
  unfold attrValue
  split
  · next nothing =>
    simpa [valueSighting, at?, nothing, valueFault] using c.ends_lacks .attributeValue
  · next t here =>
    split
    · exact tokens_stringRun "" c
    · split
      · exact c.tokens_advance
      · split
        · next mark =>
          have value := c.advance.ends_metaclass
          rw [tokens_advance] at value
          simpa [valueSighting, at?, here, mark] using value
        · next other =>
          split
          · next opening =>
            have value := c.advance.ends_valueList
            rw [tokens_advance] at value
            simpa [valueSighting, at?, here, other, opening] using value
          · next code =>
            split
            · next name c' read => exact tokens_dottedName? read
            · simpa [valueSighting, at?, here, other, code, valueFault] using
                c.ends_lacks .attributeValue

theorem ends_attrSetting (negated : Bool) (c : Cursor) :
    Ends c.tokens c.advance.skipWhitespace.valueSighting (c.attrSetting negated) := by
  unfold attrSetting
  split
  · rfl
  · next t c' taken =>
    have value := ends_attrValue c'.skipWhitespace
    rw [tokens_skipWhitespace, tokens_take? taken] at value
    rw [advance_of_take? taken]
    split
    · next v c'' read =>
      rw [read] at value
      exact value
    · next e read =>
      rw [read] at value
      exact value

/-- Where tokens of `q` end is found from where some of them end. -/
theorem skip_skip {p q : Token → Bool} (more : ∀ t, p t = true → q t = true)
    (unmarked : ∀ t : Token, t.isContinuation = true → q t = false) (c : Cursor) :
    (c.skip p).skip q = c.skip q := by
  have whole (joined : Bool) (passed ts : List Token) :
      (skipFrom p joined passed ts).skip q = skipFrom q joined passed ts := by
    fun_induction skipFrom p joined passed ts with
    | case1 => rfl
    | case2 joined passed t r passes ih =>
      have further : (q t || joined && t.isNewline) = true := by
        rcases Bool.or_eq_true_iff.mp passes with holds | feed
        · simp [more t holds]
        · simp [feed]
      rw [ih, skipFrom, if_pos further]
    | case3 joined passed t r stays marker ih =>
      have unfed : (joined && t.isNewline) = false := by simp_all
      simp [ih, skipFrom, unmarked t marker, unfed, marker]
    | case4 joined passed t r stays =>
      have unfed : (joined && t.isNewline) = false := by simp_all
      simp [skip, skipFrom, unfed]
  exact whole false c.passed c.rest

theorem skip_advance {q : Token → Bool} {c : Cursor} {t : Token} (here : c.peek = some t)
    (passes : q t = true) : c.advance.skip q = c.skip q := by
  rcases c with ⟨passed, _ | ⟨u, r⟩⟩
  · simp [peek] at here
  · obtain rfl : u = t := by simpa [peek] using here
    simp [advance, skip, skipFrom, passes]

theorem stays_of_skip {p : Token → Bool} {c : Cursor} {t : Token} (here : (c.skip p).peek = some t) :
    p t = false ∧ t.isContinuation = false := by
  have whole (joined : Bool) (passed ts : List Token)
      (here : (skipFrom p joined passed ts).peek = some t) : p t = false ∧ t.isContinuation = false := by
    fun_induction skipFrom p joined passed ts <;> simp_all [peek]
  exact whole false c.passed c.rest here

theorem skip_of_peek {q : Token → Bool} {c : Cursor}
    (stays : ∀ t, c.peek = some t → q t = false ∧ t.isContinuation = false) : c.skip q = c := by
  rcases c with ⟨passed, _ | ⟨t, r⟩⟩
  · rfl
  · have stay := stays t rfl
    simp [skip, skipFrom, stay]

theorem signatureStop_skipWhitespace (c : Cursor) : c.skipWhitespace.signatureStop = c.signatureStop := by
  apply skip_skip
  · intro t white
    simp [white]
  · intro t marker
    have kind : t.kind = .comment := by simp_all [Token.isContinuation]
    simp [Token.isWhitespace, isName, isOutputMark, Token.isPunct, Token.isOperator, Token.is, kind]

/-- Where a signature ends is found from behind one of its tokens. -/
theorem signatureStop_advance {c : Cursor} {t : Token} (here : c.skipWhitespace.peek = some t)
    (among : isName t = true ∨ isOutputMark t = true) :
    c.skipWhitespace.advance.signatureStop = c.signatureStop := by
  rw [← signatureStop_skipWhitespace c]
  apply skip_advance here
  rcases among with name | mark
  · simp [name]
  · simp [mark]

theorem signatureStop_of_peek {c : Cursor} (stays : ∀ t, c.skipWhitespace.peek = some t →
    isName t = false ∧ isOutputMark t = false) : c.signatureStop = c.skipWhitespace := by
  rw [← signatureStop_skipWhitespace c]
  apply skip_of_peek
  intro t here
  obtain ⟨white, unmarked⟩ := stays_of_skip here
  exact ⟨by simp [white, stays t here], unmarked⟩

theorem signatureSighting_advance {c : Cursor} {t : Token} (here : c.skipWhitespace.peek = some t)
    (among : isName t = true ∨ isOutputMark t = true) :
    c.skipWhitespace.advance.signatureSighting = c.signatureSighting := by
  simp only [signatureSighting, signatureStop_advance here among]

theorem ends_signature (outputs : List String) (c : Cursor) :
    Ends c.tokens c.signatureSighting (c.signature outputs) := by
  fun_induction signature outputs c with
  | case1 outputs c start nothing =>
    have stop : c.signatureStop = start := signatureStop_of_peek (by simp [start, nothing])
    refine ⟨by simp [signatureSighting, stop, nothing, Sighting.fault?], ?_, ?_⟩
    · simp [signatureSighting, stop, nothing, start]
    · simp [signatureSighting, stop, nothing, Matter.Concerns, Fault.Concerns]
  | case2 outputs c start t here => simp [Ends, start]
  | case3 outputs c start t here _ name ih =>
    rw [← signatureSighting_advance here (.inl name)]
    simpa [start] using ih
  | case4 outputs c start t here _ _ mark ih =>
    rw [← signatureSighting_advance here (.inr mark)]
    simpa [start] using ih
  | case5 outputs c start t here _ unnamed unmarked ends =>
    have stop : c.signatureStop = start := signatureStop_of_peek (by simp_all [start])
    refine ⟨by simp_all [signatureSighting, Sighting.fault?], ?_, ?_⟩
    · simp_all [signatureSighting, start]
    · simp_all [signatureSighting, Matter.Concerns, Fault.Concerns]
  | case6 outputs c start t here _ unnamed unmarked goes =>
    have stop : c.signatureStop = start := signatureStop_of_peek (by simp_all [start])
    have site : c.signatureSighting = start.breaks .outputsOrName := by
      simp_all [signatureSighting]
    rw [site, ← tokens_skipWhitespace c, ← found_of_peek here]
    exact start.ends_breaks .outputsOrName

/-- The name of a signature is the token where its outputs end. -/
theorem signature_name {outputs : List String} {c : Cursor} {result : (List String × Token) × Cursor}
    (read : c.signature outputs = .ok result) :
    c.signatureStop.peek = some result.1.2 ∧ result.1.2.kind = .nameFunction := by
  fun_induction signature outputs c generalizing result
  case case2 outputs c start t here named =>
    cases read
    have kind : t.kind = .nameFunction := by simpa using named
    have stop : c.signatureStop = start := by
      apply signatureStop_of_peek
      intro u current
      obtain rfl : t = u := Option.some.inj (here.symm.trans current)
      simp [isName, isOutputMark, Token.isPunct, Token.isOperator, Token.is, kind]
    exact ⟨stop ▸ here, kind⟩
  case case3 outputs c start t here _ name ih =>
    exact signatureStop_advance here (.inl name) ▸ ih read
  case case4 outputs c start t here _ _ mark ih =>
    exact signatureStop_advance here (.inr mark) ▸ ih read
  all_goals simp at read

theorem parametersSighting_step (name : Bool) (c : Cursor) :
    c.parametersSighting name =
      match c.skipWhitespace.peek with
      | none => c.skipWhitespace.breaks (parameterExpected name)
      | some t =>
        if name && isParameter t || !name && t.isPunct "," then
          c.skipWhitespace.advance.parametersSighting (!name)
        else c.skipWhitespace.breaks (parameterExpected name) := by
  rw [parametersSighting.eq_def]
  simp only
  split
  · next here => simp only [here]
  · next here => simp only [here]

theorem ends_parametersFrom (names : List String) (name : Bool) (c : Cursor) :
    Ends c.tokens (c.parametersSighting name) (c.parametersFrom names name) := by
  fun_induction parametersFrom names name c with
  | case1 names name c start nothing =>
    rw [parametersSighting_step, nothing, ← tokens_skipWhitespace c]
    exact start.ends_breaks (parameterExpected name)
  | case2 names name c start t here => simp [Ends, start]
  | case3 names name c start t here _ word ih =>
    obtain ⟨rfl, parameter⟩ := Bool.and_eq_true_iff.mp word
    rw [parametersSighting_step, here]
    simpa [parameter, start] using ih
  | case4 names name c start t here _ _ comma ih =>
    obtain ⟨name', mark⟩ := Bool.and_eq_true_iff.mp comma
    rw [parametersSighting_step, here]
    simp_all [start]
  | case5 names name c start t here _ word comma =>
    rw [parametersSighting_step, here, ← tokens_skipWhitespace c]
    simp only [word, comma, Bool.or_self, Bool.false_eq_true, if_false]
    exact start.ends_breaks (parameterExpected name)

theorem ends_parameters (c : Cursor) :
    Ends c.tokens (c.skipWhitespace.advance.parametersSighting true) c.parameters := by
  unfold parameters
  split
  · next t c' opened =>
    obtain rfl : c.skipWhitespace.advance = c' := advance_of_take? opened
    simpa using ends_parametersFrom [] true c.skipWhitespace.advance
  · exact c.tokens_skipWhitespace

end Cursor

namespace Reader

variable {r r₁ r₂ : Reader} {seen more : List Sighting}

@[simp] theorem tell_nil (r : Reader) : r.tell [] = r :=
  rfl

theorem notes_tell_append (r : Reader) (seen more : List Sighting) :
    (r.tell (seen ++ more)).notes = ((r.tell seen).tell more).notes := by
  simp [tell]

theorem reaches_withCursor {c : Cursor} (inside : c.tokens = r.cursor.tokens) :
    r.Reaches [] (r.withCursor c) :=
  ⟨inside, rfl, rfl, nofun⟩

theorem Reaches.refl (r : Reader) : r.Reaches [] r :=
  reaches_withCursor rfl

theorem reaches_move {f : Cursor → Cursor} (same : ∀ c, (f c).tokens = c.tokens) :
    r.Reaches [] (r.move f) :=
  reaches_withCursor (same r.cursor)

theorem reaches_tell {s : Sighting} (faultless : s.fault? = none) (holds : s.Holds r.cursor.tokens) :
    r.Reaches [s] (r.tell [s]) where
  run := rfl
  notes := rfl
  faults := by simp [faultless]
  holds := by simpa using holds

theorem Reaches.append (first : r.Reaches seen r₁) (further : r₁.Reaches more r₂) :
    r.Reaches (seen ++ more) r₂ where
  run := further.run.trans first.run
  notes := by rw [notes_tell_append, further.notes, tell, first.notes]; rfl
  faults := by rw [List.filterMap_append, first.faults, further.faults, List.append_nil]
  holds := List.forall_mem_append.mpr ⟨first.holds, first.run ▸ further.holds⟩

theorem Reaches.fails (first : r.Reaches seen r₁) {f : Failure} (further : r₁.Fails more f) :
    r.Fails (seen ++ more) f where
  notes := by rw [notes_tell_append, further.notes, tell, first.notes]; rfl
  faults := by rw [List.filterMap_append, first.faults, further.faults, List.nil_append]
  holds := List.forall_mem_append.mpr ⟨first.holds, first.run ▸ further.holds⟩

theorem Reaches.sees {α : Type} (first : r.Reaches seen r₁) {outcome : Except Failure (α × Reader)}
    (further : r₁.Sees more outcome) : r.Sees (seen ++ more) outcome := by
  rcases outcome with f | ⟨a, r'⟩
  · exact first.fails further
  · exact first.append further

/-- A fault found without notes. -/
theorem fails_of_ends {α : Type} {s : Sighting} {e : FaultAt}
    (ends : Cursor.Ends (α := α) r.cursor.tokens s (.error e)) : r.Fails [s] ⟨e, r.notes⟩ where
  notes := by simp [tell, Sighting.note?_of_fault? ends.1]
  faults := by simp [ends.1]
  holds := by simpa using ends.2

theorem fails_lacks (r : Reader) (expected : Expected) :
    r.Fails [r.cursor.lacks expected] (r.fail (.malformedAttributes expected r.cursor.found)) :=
  fails_of_ends (r.cursor.ends_lacks (α := Unit) expected)

/-- A fault that is told at `c`. -/
theorem fails_fault {c : Cursor} (inside : c.tokens = r.cursor.tokens) {fault : Fault}
    (concerns : fault.Concerns c) : r.Fails [⟨c, .fault fault⟩] ⟨c.fault fault, r.notes⟩ :=
  fails_of_ends (α := Unit) ⟨rfl, inside, concerns⟩

theorem reaches_warn {c : Cursor} (inside : c.tokens = r.cursor.tokens) {cause : Warning}
    (concerns : cause.Concerns c) : r.Reaches [c.warns cause] (r.warn c.line cause) :=
  reaches_tell (s := c.warns cause) rfl ⟨inside, concerns⟩

theorem tell_warns {t : Token} (here : r.cursor.peek = some t) (cause : Warning) :
    r.tell [r.cursor.warns cause] = r.warn t.line cause := by
  rw [← Cursor.line_of_peek here]
  rfl

theorem tell_skipped {t : Token} (here : r.cursor.peek = some t) :
    r.tell [⟨r.cursor, .skipped⟩] = r.note (.skipped t.line t.describe) := by
  rw [← Cursor.line_of_peek here, ← Cursor.found_of_peek here]
  rfl

theorem sees_oneAttribute (v : Vocabulary) (r : Reader) :
    r.Sees (Sightings.oneAttribute v r) (r.oneAttribute v) := by
  have start : (r.cursor.skipIf isNegation).skipWhitespace.tokens = r.cursor.tokens := by simp
  unfold oneAttribute Sightings.oneAttribute
  simp only
  generalize (r.cursor.skipIf isNegation).skipWhitespace = c at start ⊢
  rcases taken : c.take? Cursor.isName with _ | ⟨t, c'⟩
  · exact fails_of_ends (start ▸ c.ends_lacks (α := Unit) .attributeName)
  · have here := Cursor.peek_take? taken
    simp only
    rcases known : v.lookup t.text with _ | ⟨spelling, kind⟩
    · exact fails_fault start ⟨t, v, here.1, rfl, rfl, known⟩
    · have setting := c'.skipWhitespace.ends_attrSetting (r.cursor.at? isNegation)
      rw [Cursor.tokens_skipWhitespace, Cursor.tokens_take? taken, start] at setting
      simp only
      rcases read : c'.skipWhitespace.attrSetting (r.cursor.at? isNegation) with e | ⟨value, c''⟩
      · rw [read] at setting
        exact fails_of_ends setting
      · rw [read] at setting
        have behind : r.Reaches [] (r.withCursor c'') := reaches_withCursor setting
        by_cases accepted : kind.accepts value = true
        · simpa [accepted, Sees] using behind
        · have refused : (Warning.attributeKind spelling kind value).Concerns c :=
            ⟨t, v, here.1, known⟩
          have told := reaches_warn (r := r.withCursor c'') (start.trans setting.symm) refused
          simpa [accepted, Sees] using behind.append told

end Reader

namespace Sightings

theorem attributesFrom_step (v : Vocabulary) (r : Reader) :
    attributesFrom v r =
      if (r.move Cursor.skipWhitespace).cursor.at? (·.isPunct ")") then []
      else
        oneAttribute v (r.move Cursor.skipWhitespace) ++
          match (r.move Cursor.skipWhitespace).oneAttribute v with
          | .error _ => []
          | .ok (_, r') =>
            match (r'.move Cursor.skipWhitespace).cursor.take? (·.isPunct ",") with
            | some (_, c) => attributesFrom v ((r'.move Cursor.skipWhitespace).withCursor c)
            | none =>
              if (r'.move Cursor.skipWhitespace).cursor.at? (·.isPunct ")") then []
              else [(r'.move Cursor.skipWhitespace).cursor.lacks .commaOrParenthesis] := by
  rw [attributesFrom.eq_def]
  simp only
  split
  · rfl
  · split
    · next here => simp only [here]
    · next here =>
      simp only [here]
      split
      · next mark => simp only [mark]
      · next mark => simp only [mark]

/-- What the reader comes upon in a block, by the token at which it stands. -/
theorem entries_step (block : BlockKind) (dotted : Bool) (r : Reader) :
    entries block dotted r =
      match (r.move Cursor.skipWhitespace).cursor.peek with
      | none => [(r.move Cursor.skipWhitespace).cursor.warns (.unterminatedBlock block)]
      | some t =>
        if t.isKeyword "end" then []
        else if Cursor.isName t then
          entry dotted (r.move Cursor.skipWhitespace).cursor ++
            entries block dotted ((r.move Cursor.skipWhitespace).entry dotted).2
        else if t.kind == .comment || Reader.separatesEntries t then
          entries block dotted ((r.move Cursor.skipWhitespace).move Cursor.advance)
        else
          let seen := (r.move Cursor.skipWhitespace).cursor.warns (.unexpectedInBlock t.describe block)
          seen :: entries block dotted (((r.move Cursor.skipWhitespace).tell [seen]).move Cursor.skipLine) := by
  rw [entries.eq_def]
  simp only
  split
  · next here => simp only [here]
  · next here => simp only [here]

end Sightings

namespace Reader

variable {r r₁ r₂ : Reader} {seen more : List Sighting}

theorem sees_attributesFrom (v : Vocabulary) (table : Table AttrValue) (r : Reader) :
    r.Sees (Sightings.attributesFrom v r) (r.attributesFrom v table) := by
  have first (r : Reader) : r.Reaches [] (r.move Cursor.skipWhitespace) :=
    reaches_move Cursor.tokens_skipWhitespace
  have taken {r : Reader} {p : Token → Bool} {t : Token} {c : Cursor}
      (mark : r.cursor.take? p = some (t, c)) : r.Reaches [] (r.withCursor c) :=
    reaches_withCursor (Cursor.tokens_take? mark)
  fun_induction attributesFrom v table r with
  | case1 table r start t c closed =>
    rw [Sightings.attributesFrom_step, if_pos (Cursor.at?_of_take? closed)]
    exact (first r).append (taken closed)
  | case2 table r start opened e read =>
    rw [Sightings.attributesFrom_step, if_neg (Cursor.not_at?_of_take? opened), read]
    have item := start.sees_oneAttribute v
    rw [read] at item
    simp only [List.append_nil]
    exact (first r).fails item
  | case3 table r start opened spelling value r' read behind t c comma ih =>
    rw [Sightings.attributesFrom_step, if_neg (Cursor.not_at?_of_take? opened), read]
    have item := start.sees_oneAttribute v
    rw [read] at item
    have mark : (r'.move Cursor.skipWhitespace).cursor.take? (·.isPunct ",") = some (t, c) := comma
    simp only [mark]
    exact (first r).sees (Reaches.sees item ((first r').sees ((taken comma).sees ih)))
  | case4 table r start opened spelling value r' read behind other t c closed =>
    rw [Sightings.attributesFrom_step, if_neg (Cursor.not_at?_of_take? opened), read]
    have item := start.sees_oneAttribute v
    rw [read] at item
    have unmarked : (r'.move Cursor.skipWhitespace).cursor.take? (·.isPunct ",") = none := other
    have ending : (r'.move Cursor.skipWhitespace).cursor.at? (·.isPunct ")") = true :=
      Cursor.at?_of_take? closed
    simp only [unmarked, ending, if_true]
    exact (first r).append (Reaches.append item ((first r').append (taken closed)))
  | case5 table r start opened spelling value r' read behind other another =>
    rw [Sightings.attributesFrom_step, if_neg (Cursor.not_at?_of_take? opened), read]
    have item := start.sees_oneAttribute v
    rw [read] at item
    have unmarked : (r'.move Cursor.skipWhitespace).cursor.take? (·.isPunct ",") = none := other
    have further : ¬(r'.move Cursor.skipWhitespace).cursor.at? (·.isPunct ")") = true :=
      Cursor.not_at?_of_take? another
    simp only [unmarked, if_neg further]
    exact (first r).fails (Reaches.fails item ((first r').fails (behind.fails_lacks .commaOrParenthesis)))

theorem sees_attributes (v : Vocabulary) (r : Reader) :
    r.Sees (Sightings.attributes v r) (r.attributes v) := by
  unfold attributes Sightings.attributes
  rcases opened : r.cursor.take? (·.isPunct "(") with _ | ⟨t, c⟩
  · exact reaches_withCursor rfl
  · exact (reaches_withCursor (Cursor.tokens_take? opened)).sees (sees_attributesFrom v {} _)

/-- The attributes behind a keyword at the cursor. -/
theorem sees_header (v : Vocabulary) (r : Reader) :
    r.Sees (Sightings.header v r) (((r.move Cursor.advance).move Cursor.skipWhitespace).attributes v) :=
  ((reaches_move Cursor.tokens_advance).append (reaches_move Cursor.tokens_skipWhitespace)).sees
    (sees_attributes v _)

theorem reaches_entrySize (name : String) (r : Reader) :
    r.Reaches (Sightings.entrySize name r.cursor) (r.entrySize name).2 := by
  unfold entrySize Sightings.entrySize
  rcases opened : r.cursor.take? (·.isPunct "(") with _ | ⟨t, c⟩
  · exact reaches_withCursor rfl
  · have size := Cursor.tokens_sizeFrom false c.passed c.rest
    have inside : c.passed.reverse ++ c.rest = r.cursor.tokens := Cursor.tokens_take? opened
    have missed (c' : Cursor) (within : c'.tokens = r.cursor.tokens) :
        r.Reaches [r.cursor.warns (.invalidSize name)]
          ((r.withCursor c'.skipWhitespace).warn r.cursor.line (.invalidSize name)) := by
      have behind : c'.skipWhitespace.tokens = r.cursor.tokens := c'.tokens_skipWhitespace.trans within
      refine (reaches_withCursor behind).append (reaches_warn behind.symm ?_)
      exact Cursor.at?_of_take? opened
    rw [inside] at size
    rcases read : Cursor.sizeFrom false c.passed c.rest with ⟨_ | ⟨_ | ⟨d, dims⟩⟩, c'⟩
    · rw [read] at size
      simpa only [read] using missed c' size
    · rw [read] at size
      simpa only [read] using missed c' size
    · rw [read] at size
      simpa only [read] using reaches_withCursor (c'.tokens_skipWhitespace.trans size)

theorem reaches_entry (dotted : Bool) (r : Reader) :
    r.Reaches (Sightings.entry dotted r.cursor) (r.entry dotted).2 := by
  have name : r.Reaches [] (r.withCursor (r.cursor.entryName dotted).2.skipWhitespace) :=
    reaches_withCursor (by simp)
  have size := reaches_entrySize (r.cursor.entryName dotted).1
    (r.withCursor (r.cursor.entryName dotted).2.skipWhitespace)
  exact { name.append size with run := r.tokens_entry dotted }

theorem reaches_entriesFrom (block : BlockKind) (dotted : Bool) (items : List ListItem)
    (entries : List Entry) (r : Reader) :
    r.Reaches (Sightings.entries block dotted r) (r.entriesFrom block dotted items entries).2 := by
  have first (r : Reader) : r.Reaches [] (r.move Cursor.skipWhitespace) :=
    reaches_move Cursor.tokens_skipWhitespace
  fun_induction entriesFrom block dotted items entries r with
  | case1 items entries r start nothing =>
    rw [Sightings.entries_step, nothing]
    exact (first r).append (reaches_warn rfl (Cursor.atEnd_of_peek nothing))
  | case2 items entries r start t here ends =>
    rw [Sightings.entries_step, here]
    simp only [ends, if_true]
    exact (first r).append (reaches_move Cursor.tokens_advance)
  | case3 items entries r start t here ends name e trailing ih =>
    rw [Sightings.entries_step, here]
    simp only [ends, name, if_true]
    exact (first r).append ((reaches_entry dotted start).append ih)
  | case4 items entries r start t here ends name comment ih =>
    rw [Sightings.entries_step, here]
    simp only [ends, name, comment, Bool.true_or, if_true]
    exact (first r).append ((reaches_move Cursor.tokens_advance).append ih)
  | case5 items entries r start t here ends name comment separates ih =>
    rw [Sightings.entries_step, here]
    simp only [ends, name, separates, Bool.or_true, if_true]
    exact (first r).append ((reaches_move Cursor.tokens_advance).append ih)
  | case6 items entries r start t here ends name comment separates ih =>
    rw [Sightings.entries_step, here]
    simp only [ends, name, comment, separates, Bool.or_self]
    have told : start.Reaches [start.cursor.warns (.unexpectedInBlock t.describe block)]
        (start.tell [start.cursor.warns (.unexpectedInBlock t.describe block)]) :=
      reaches_tell rfl ⟨rfl, Cursor.found_of_peek here⟩
    rw [← tell_warns here] at ih ⊢
    exact (first r).append (told.append ((reaches_move Cursor.tokens_skipLine).append ih))

theorem reaches_entries (block : BlockKind) (dotted : Bool) (r : Reader) :
    r.Reaches (Sightings.entries block dotted r) (r.entries block dotted).2 :=
  reaches_entriesFrom block dotted [] [] r

end Reader

end MatlabOutline
