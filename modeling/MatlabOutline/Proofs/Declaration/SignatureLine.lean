import MatlabOutline.Declaration.Function
import MatlabOutline.Proofs.Normalize.Relisted

/-!
Signature lines: their words in order, without the white space between them, and what is read from
them (`Cursor.signature_words`, `Cursor.parameters_words`).
-/

namespace MatlabOutline

/-- The kinds and texts of the tokens that are not white space. -/
def words (ts : List Token) : List (TokenKind × String) :=
  (ts.filter (!·.isWhitespace)).map Token.segment

@[simp] theorem words_nil : words [] = [] :=
  rfl

@[simp] theorem words_append (ts us : List Token) : words (ts ++ us) = words ts ++ words us := by
  simp [words]

theorem words_cons_of_blank {t : Token} (blank : t.isWhitespace = true) (ts : List Token) :
    words (t :: ts) = words ts := by
  simp [words, blank]

theorem words_cons {t : Token} (solid : t.isWhitespace = false) (ts : List Token) :
    words (t :: ts) = t.segment :: words ts := by
  simp [words, solid]

/-- The first word stands behind some white space. -/
theorem words_cons_inv {ts : List Token} {x : TokenKind × String} {xs : List (TokenKind × String)}
    (read : words ts = x :: xs) :
    ∃ gap t rest, ts = gap ++ t :: rest ∧ (∀ g ∈ gap, g.isWhitespace = true) ∧
      t.isWhitespace = false ∧ t.segment = x ∧ words rest = xs := by
  induction ts with
  | nil => simp at read
  | cons t ts ih =>
    by_cases blank : t.isWhitespace = true
    · rw [words_cons_of_blank blank] at read
      obtain ⟨gap, u, rest, rfl, white, solid, first, further⟩ := ih read
      refine ⟨t :: gap, u, rest, rfl, ?_, solid, first, further⟩
      simpa [blank] using white
    · rw [Bool.not_eq_true] at blank
      rw [words_cons blank, List.cons.injEq] at read
      exact ⟨[], t, ts, rfl, by simp, blank, read.1, read.2⟩

theorem blank_of_words {ts : List Token} (blank : words ts = []) : ∀ t ∈ ts, t.isWhitespace = true := by
  simpa [words] using blank

/-- A token is white space or one of the words. -/
theorem forall_mem_of_words {ts : List Token} {q : Token → Prop}
    (white : ∀ t ∈ ts, t.isWhitespace = true → q t) (word : ∀ t, t.segment ∈ words ts → q t) :
    ∀ t ∈ ts, q t := by
  intro t member
  by_cases blank : t.isWhitespace = true
  · exact white t member blank
  · exact word t (List.mem_map_of_mem (by simp [List.mem_filter, member, blank]))

namespace Cursor

/-- Passing over tokens ends at the first other one that is no continuation marker. -/
theorem skip_over {p : Token → Bool} {gap : List Token} {t : Token} (gaps : ∀ g ∈ gap, p g = true)
    (stop : p t = false) (marker : t.isContinuation = false) (passed rest : List Token) :
    skip ⟨passed, gap ++ t :: rest⟩ p = ⟨gap.reverse ++ passed, t :: rest⟩ := by
  unfold skip
  induction gap generalizing passed with
  | nil => simp [skipFrom, stop, marker]
  | cons g gap ih =>
    simp only [List.forall_mem_cons] at gaps
    simp only [List.cons_append, skipFrom, gaps.1, Bool.true_or, if_true, ih gaps.2]
    simp

theorem skipWhitespace_word {ts : List Token} {x : TokenKind × String} {xs : List (TokenKind × String)}
    (read : words ts = x :: xs) (code : x.1 ≠ .comment) (passed tail : List Token) :
    ∃ passed' t rest, skipWhitespace ⟨passed, ts ++ tail⟩ = ⟨passed', t :: (rest ++ tail)⟩ ∧
      t.segment = x ∧ words rest = xs := by
  obtain ⟨gap, t, rest, rfl, white, solid, first, further⟩ := words_cons_inv read
  have marker : t.isContinuation = false := by
    have kind : t.kind ≠ .comment := by rwa [← first] at code
    simp [Token.isContinuation, kind]
  refine ⟨gap.reverse ++ passed, t, rest, ?_, first, further⟩
  rw [List.append_assoc, List.cons_append]
  exact skip_over white solid marker passed _

/-- Passing over the white space at the end of a line stops at its line end. -/
theorem skipWhitespace_blank {ts : List Token} (blank : words ts = []) {e : Token}
    (ends : e.kind = .newline) (passed tail : List Token) :
    skipWhitespace ⟨passed, ts ++ e :: tail⟩ = ⟨ts.reverse ++ passed, e :: tail⟩ :=
  skip_over (blank_of_words blank) (by simp [Token.isWhitespace, ends])
    (by simp [Token.isContinuation, ends]) passed tail

end Cursor

/-- The names between the brackets of a signature's outputs; a comma may stand between two. -/
inductive OutputNames : List String → List (TokenKind × String) → Prop
  | last (r : String) : OutputNames [r] [(.name, r)]
  | space {rs : List String} {ws : List (TokenKind × String)} (r : String) : OutputNames rs ws →
      OutputNames (r :: rs) ((.name, r) :: ws)
  | comma {rs : List String} {ws : List (TokenKind × String)} (r : String) : OutputNames rs ws →
      OutputNames (r :: rs) ((.name, r) :: (.punctuation, ",") :: ws)

/-- The outputs of a signature with the `=` that ends them. -/
inductive OutputWords : List String → List (TokenKind × String) → Prop
  | none : OutputWords [] []
  | single (r : String) : OutputWords [r] [(.name, r), (.operator, "=")]
  | empty : OutputWords [] [(.punctuation, "["), (.punctuation, "]"), (.operator, "=")]
  | list {rs : List String} {ws : List (TokenKind × String)} : OutputNames rs ws →
      OutputWords rs ((.punctuation, "[") :: (ws ++ [(.punctuation, "]"), (.operator, "=")]))

/-- A parameter is a name or the mark of one that is not used. -/
inductive ParameterWord : String → TokenKind × String → Prop
  | name (p : String) : ParameterWord p (.name, p)
  | unused : ParameterWord "~" (.operator, "~")

/-- The parameters of a list that is not empty, through its closing parenthesis. -/
inductive ParameterNames : List String → List (TokenKind × String) → Prop
  | last {p : String} {x : TokenKind × String} : ParameterWord p x →
      ParameterNames [p] [x, (.punctuation, ")")]
  | comma {p : String} {x : TokenKind × String} {ps : List String} {ws : List (TokenKind × String)} :
      ParameterWord p x → ParameterNames ps ws →
      ParameterNames (p :: ps) (x :: (.punctuation, ",") :: ws)

/-- The parameter list of a signature, which may be left out. -/
inductive ParameterWords : List String → List (TokenKind × String) → Prop
  | none : ParameterWords [] []
  | empty : ParameterWords [] [(.punctuation, "("), (.punctuation, ")")]
  | list {ps : List String} {ws : List (TokenKind × String)} : ParameterNames ps ws →
      ParameterWords ps ((.punctuation, "(") :: ws)

/-- The output that a word of a signature names. -/
def outputOf (x : TokenKind × String) : Option String :=
  if x.1 = .name then some x.2 else none

/-- A word that may stand among the outputs of a signature. -/
def IsOutputWord (x : TokenKind × String) : Prop :=
  x.1 = .name ∨
    x ∈ [(.punctuation, "["), (.punctuation, "]"), (.punctuation, ","), (TokenKind.operator, "=")]

theorem OutputNames.words {rs : List String} {ws : List (TokenKind × String)} (names : OutputNames rs ws) :
    (∀ x ∈ ws, IsOutputWord x) ∧ ws.filterMap outputOf = rs := by
  induction names with
  | last r => simp [IsOutputWord, outputOf]
  | space r _ ih => simpa [IsOutputWord, outputOf] using ih
  | comma r _ ih => simpa [IsOutputWord, outputOf] using ih

theorem OutputWords.words {rs : List String} {ws : List (TokenKind × String)} (outputs : OutputWords rs ws) :
    (∀ x ∈ ws, IsOutputWord x) ∧ ws.filterMap outputOf = rs := by
  cases outputs with
  | none => simp
  | single r => simp [IsOutputWord, outputOf]
  | empty => simp [IsOutputWord, outputOf]
  | list names =>
    obtain ⟨all, outputs⟩ := names.words
    constructor
    · simpa [IsOutputWord, or_imp, forall_and] using all
    · simp [outputOf, outputs]

namespace Cursor

section Signature

variable {c : Cursor} {passed rest : List Token} {t : Token} (here : c.skipWhitespace = ⟨passed, t :: rest⟩)
include here

theorem signature_here (outputs : List String) :
    c.signature outputs =
      if t.kind == .nameFunction then .ok ((outputs, t), ⟨t :: passed, rest⟩)
      else if isName t then signature (outputs ++ [t.text]) ⟨t :: passed, rest⟩
      else if isOutputMark t then signature outputs ⟨t :: passed, rest⟩
      else if t.isNewline || t.kind == .comment then
        .error (c.skipWhitespace.fault .missingFunctionName)
      else .error (c.skipWhitespace.fault (.malformedSignature .outputsOrName t.describe)) := by
  have first : c.skipWhitespace.peek = some t := by rw [here]; rfl
  have next : c.skipWhitespace.advance = ⟨t :: passed, rest⟩ := by rw [here]; rfl
  rw [signature.eq_def]
  simp only
  split
  · next empty => simp [first] at empty
  · next u found =>
    obtain rfl : t = u := by simpa [first] using found
    rw [next]

theorem parametersFrom_here (names : List String) (name : Bool) :
    c.parametersFrom names name =
      if t.isPunct ")" then .ok (names, ⟨t :: passed, rest⟩)
      else if name && isParameter t then parametersFrom (names ++ [t.text]) false ⟨t :: passed, rest⟩
      else if !name && t.isPunct "," then parametersFrom names true ⟨t :: passed, rest⟩
      else .error (c.skipWhitespace.fault
        (.malformedSignature (parameterExpected name) c.skipWhitespace.found)) := by
  have first : c.skipWhitespace.peek = some t := by rw [here]; rfl
  have next : c.skipWhitespace.advance = ⟨t :: passed, rest⟩ := by rw [here]; rfl
  rw [parametersFrom.eq_def]
  simp only
  split
  · next empty => simp [first] at empty
  · next u found =>
    obtain rfl : t = u := by simpa [first] using found
    rw [next]

end Signature

/-- The words of a signature give its outputs and the token that names the function. -/
theorem signature_words {ws more : List (TokenKind × String)} {name : String}
    (marks : ∀ x ∈ ws, IsOutputWord x) {ts : List Token}
    (read : words ts = ws ++ (.nameFunction, name) :: more) (outputs : List String)
    (passed tail : List Token) :
    ∃ passed' t rest, signature outputs ⟨passed, ts ++ tail⟩ =
        .ok ((outputs ++ ws.filterMap outputOf, t), ⟨passed', rest ++ tail⟩) ∧
      t.text = name ∧ words rest = more := by
  induction ws generalizing ts outputs passed with
  | nil =>
    obtain ⟨passed', t, rest, here, first, further⟩ :=
      skipWhitespace_word read (by simp) passed tail
    obtain ⟨kind, text⟩ := Prod.mk.inj first
    refine ⟨t :: passed', t, rest, ?_, text, further⟩
    rw [signature_here here]
    simp [kind]
  | cons x ws ih =>
    simp only [List.forall_mem_cons] at marks
    have code : x.1 ≠ .comment := by
      rcases marks.1 with kind | mark
      · simp [kind]
      · simp only [List.mem_cons, List.not_mem_nil, or_false] at mark
        rcases mark with rfl | rfl | rfl | rfl <;> simp
    obtain ⟨passed', t, rest, here, first, further⟩ := skipWhitespace_word read code passed tail
    by_cases named : x.1 = .name
    · obtain ⟨last, u, end', result, text, after⟩ := ih marks.2 further (outputs ++ [t.text]) (t :: passed')
      refine ⟨last, u, end', ?_, text, after⟩
      have kind : t.kind = .name := by rw [← named, ← first]; rfl
      have output : outputOf x = some t.text := by rw [← first]; simp [outputOf, Token.segment, kind]
      rw [signature_here here]
      simpa [kind, isName, List.filterMap_cons, output] using result
    · obtain ⟨last, u, end', result, text, after⟩ := ih marks.2 further outputs (t :: passed')
      refine ⟨last, u, end', ?_, text, after⟩
      have mark := marks.1.resolve_left named
      rw [signature_here here, List.filterMap_cons, outputOf, if_neg named]
      rw [← first] at mark
      simp only [List.mem_cons, List.not_mem_nil, or_false, Token.segment, Prod.mk.injEq] at mark
      rcases mark with ⟨kind, text⟩ | ⟨kind, text⟩ | ⟨kind, text⟩ | ⟨kind, text⟩ <;>
        simpa [kind, text, isName, isOutputMark, Token.isPunct, Token.isOperator, Token.is] using result

theorem parametersFrom_name {p : String} {x : TokenKind × String} {xs : List (TokenKind × String)}
    (param : ParameterWord p x) {ts : List Token} (read : words ts = x :: xs) (names : List String)
    (passed tail : List Token) :
    ∃ passed' rest, parametersFrom names true ⟨passed, ts ++ tail⟩ =
      parametersFrom (names ++ [p]) false ⟨passed', rest ++ tail⟩ ∧ words rest = xs := by
  have code : x.1 ≠ .comment := by cases param <;> simp
  obtain ⟨passed', t, rest, here, first, further⟩ := skipWhitespace_word read code passed tail
  refine ⟨t :: passed', rest, ?_, further⟩
  rw [parametersFrom_here here]
  cases param <;> obtain ⟨kind, text⟩ := Prod.mk.inj first <;>
    simp [kind, text, isParameter, isName, Token.isPunct, Token.isOperator, Token.is]

/-- The words of a parameter list, behind its opening parenthesis, give the parameters. -/
theorem parametersFrom_words {ps : List String} {ws more : List (TokenKind × String)}
    (params : ParameterNames ps ws) {ts : List Token} (read : words ts = ws ++ more)
    (names : List String) (passed tail : List Token) :
    ∃ passed' rest, parametersFrom names true ⟨passed, ts ++ tail⟩ =
        .ok (names ++ ps, ⟨passed', rest ++ tail⟩) ∧ words rest = more := by
  induction params generalizing ts names passed with
  | last param =>
    obtain ⟨passed₁, rest₁, first, further⟩ := parametersFrom_name param read names passed tail
    obtain ⟨passed₂, t, rest₂, here, closing, behind⟩ :=
      skipWhitespace_word further (by simp) passed₁ tail
    obtain ⟨kind, text⟩ := Prod.mk.inj closing
    refine ⟨t :: passed₂, rest₂, ?_, behind⟩
    rw [first, parametersFrom_here here]
    simp [Token.isPunct, Token.is, kind, text]
  | @comma p x ps ws param _ ih =>
    obtain ⟨passed₁, rest₁, first, further⟩ := parametersFrom_name param read names passed tail
    obtain ⟨passed₂, t, rest₂, here, mark, behind⟩ :=
      skipWhitespace_word further (by simp) passed₁ tail
    obtain ⟨passed', rest, result, after⟩ := ih behind (names ++ [p]) (t :: passed₂)
    obtain ⟨kind, text⟩ := Prod.mk.inj mark
    refine ⟨passed', rest, ?_, after⟩
    rw [first, parametersFrom_here here]
    simpa [Token.isPunct, Token.is, kind, text] using result

/-- The words of a parameter list give the parameters; it may be missing. -/
theorem parameters_words {ps : List String} {ws : List (TokenKind × String)}
    (params : ParameterWords ps ws) {ts : List Token} (read : words ts = ws) {e : Token}
    (solid : e.isWhitespace = false) (code : e.isContinuation = false) (other : e.isPunct "(" = false)
    (passed tail : List Token) :
    ∃ passed' rest, parameters ⟨passed, ts ++ e :: tail⟩ = .ok (ps, ⟨passed', rest ++ e :: tail⟩) ∧
      words rest = [] := by
  cases params with
  | none =>
    refine ⟨ts.reverse ++ passed, [], ?_, rfl⟩
    have moved := skip_over (blank_of_words read) solid code passed tail
    rw [parameters, skipWhitespace, moved]
    simp [take?, other]
  | empty =>
    obtain ⟨passed₁, t, rest₁, here, opening, further⟩ :=
      skipWhitespace_word read (by simp) passed (e :: tail)
    obtain ⟨passed₂, u, rest₂, there, closing, behind⟩ :=
      skipWhitespace_word further (by simp) (t :: passed₁) (e :: tail)
    obtain ⟨kind, text⟩ := Prod.mk.inj opening
    obtain ⟨kind', text'⟩ := Prod.mk.inj closing
    refine ⟨u :: passed₂, rest₂, ?_, behind⟩
    rw [parameters, here]
    simp only [take?, Token.isPunct, Token.is, kind, text, beq_self_eq_true, Bool.and_self, if_true]
    rw [parametersFrom_here there]
    simp [Token.isPunct, Token.is, kind', text']
  | list names =>
    obtain ⟨passed₁, t, rest₁, here, opening, further⟩ :=
      skipWhitespace_word read (by simp) passed (e :: tail)
    obtain ⟨passed', rest, result, after⟩ :=
      parametersFrom_words names (further.trans (List.append_nil _).symm) [] (t :: passed₁) (e :: tail)
    obtain ⟨kind, text⟩ := Prod.mk.inj opening
    refine ⟨passed', rest, ?_, after⟩
    rw [parameters, here]
    simpa [take?, Token.isPunct, Token.is, kind, text] using result

end Cursor

end MatlabOutline
