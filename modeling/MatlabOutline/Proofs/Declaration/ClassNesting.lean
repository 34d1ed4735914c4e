import MatlabOutline.Proofs.Declaration.ClassText

/-!
How the lines of a class text are nested. Main statement: none of them declares a method without a
body, and the blocks are closed at the end (`ClassText.Tokens.calm`).
-/

namespace MatlabOutline

/-- From nesting `n` on whole lines are passed without a declaration that lacks its body, and nesting
`after` is reached. -/
structure Calm (n : Nesting) (ts : List Token) (after : Nesting) : Prop where
  ended : ts.getLast?.all Token.isNewline = true
  settled : Settled n (tokenLines ts)
  reached : ts.foldl Nesting.step n = after

theorem Calm.append {n m after : Nesting} {ts us : List Token} (first : Calm n ts m)
    (second : Calm m us after) : Calm n (ts ++ us) after where
  ended := by
    rcases us with _ | ⟨u, us⟩
    · simpa using first.ended
    · rw [List.getLast?_append]
      have last := second.ended
      rw [List.getLast?_cons] at last ⊢
      simpa using last
  settled := settled_tokenLines_append first.ended first.settled (by rw [first.reached]; exact second.settled)
  reached := by rw [List.foldl_append, first.reached, second.reached]

namespace Nesting

/-- The nesting after a word. -/
def read (n : Nesting) (x : TokenKind × String) : Nesting :=
  n.step ⟨x.1, x.2, 0⟩

theorem foldl_words (n : Nesting) (ts : List Token) : ts.foldl step n = (words ts).foldl read n := by
  induction ts generalizing n with
  | nil => rfl
  | cons t ts ih =>
    by_cases blank : t.isWhitespace = true
    · have same : n.step t = n := by
        have kind : t.kind = .whitespace := by simpa [Token.isWhitespace] using blank
        simp [step, kind, Token.isOpenBracket, Token.isCloseBracket, Token.isPunct, Token.is]
      rw [List.foldl_cons, same, ih, words_cons_of_blank blank]
    · rw [Bool.not_eq_true] at blank
      rw [List.foldl_cons, ih, words_cons blank, List.foldl_cons]
      rfl

end Nesting

theorem isStubLine_eq (ts : List Token) :
    isStubLine ts = (words ts).head?.any fun x => !(x.1 == .newline || x.1 == .comment || x.1 == .keyword) := by
  induction ts with
  | nil => rfl
  | cons t ts ih =>
    by_cases blank : t.isWhitespace = true
    · rw [words_cons_of_blank blank, ← ih]
      simp [isStubLine, blank]
    · rw [Bool.not_eq_true] at blank
      rw [words_cons blank]
      simp [isStubLine, blank, Token.segment, Token.isNewline]

/-- A line in a `methods` block that begins with a keyword is no declaration without a body. -/
theorem IsLine.calm {ws : List (TokenKind × String)} {ts : List Token} (line : IsLine ws ts)
    (within : ∀ x ∈ ws, x.1 ≠ .newline) {n : Nesting}
    (code : n.inMethods = false ∨ ws.head?.any (·.1 == .keyword) = true) :
    Calm n ts (ws.foldl Nesting.read n) := by
  obtain ⟨front, e, rfl, read, ends⟩ := line
  have inside : ∀ t ∈ front, t.isNewline = false := by
    refine forall_mem_of_words (fun t _ blank => ?_) fun t word => ?_
    · have kind : t.kind = .whitespace := by simpa [Token.isWhitespace] using blank
      simp [Token.isNewline, kind]
    · exact beq_false_of_ne (within _ (read ▸ word))
  have newline : e.isNewline = true := by simp [Token.isNewline, ends]
  refine ⟨by simp [newline], ?_, ?_⟩
  · rw [tokenLines_line inside newline]
    refine ⟨?_, trivial⟩
    rcases code with outside | keyword
    · simp [outside]
    · have stub : isStubLine (front ++ [e]) = false := by
        rw [isStubLine_eq, words_append, read]
        rcases ws with _ | ⟨x, ws⟩
        · simp at keyword
        · simp only [List.head?_cons, Option.any_some, beq_iff_eq] at keyword
          simp [keyword]
      simp [stub]
  · rw [List.foldl_append, Nesting.foldl_words n front, read]
    simp [Nesting.step, ends, Token.isOpenBracket, Token.isCloseBracket, Token.isPunct, Token.is]

namespace Nesting

theorem foldl_neutral {n : Nesting} {ws : List (TokenKind × String)} (neutral : ∀ x ∈ ws, n.read x = n) :
    ws.foldl read n = n := by
  induction ws with
  | nil => rfl
  | cons x ws ih =>
    simp only [List.forall_mem_cons] at neutral
    rw [List.foldl_cons, neutral.1, ih neutral.2]

/-- Names and commas leave the nesting as it is. -/
theorem foldl_outputNames (n : Nesting) {rs : List String} {ws : List (TokenKind × String)}
    (names : OutputNames rs ws) : ws.foldl read n = n := by
  apply foldl_neutral
  induction names with
  | last r => simp [read, step, Token.isOpenBracket, Token.isCloseBracket, Token.isPunct, Token.is]
  | space r _ ih =>
    rw [List.forall_mem_cons]
    refine ⟨?_, ih⟩
    simp [read, step, Token.isOpenBracket, Token.isCloseBracket, Token.isPunct, Token.is]
  | comma r _ ih =>
    rw [List.forall_mem_cons, List.forall_mem_cons]
    refine ⟨?_, rfl, ih⟩
    simp [read, step, Token.isOpenBracket, Token.isCloseBracket, Token.isPunct, Token.is]

theorem foldl_outputWords (n : Nesting) {rs : List String} {ws : List (TokenKind × String)}
    (outputs : OutputWords rs ws) : ws.foldl read n = n := by
  cases outputs with
  | none => rfl
  | single r => simp [read, step, Token.isOpenBracket, Token.isCloseBracket, Token.isPunct, Token.is]
  | empty => rfl
  | list names =>
    rw [List.foldl_cons, List.foldl_append, foldl_outputNames _ names]
    rfl

theorem read_parameter (n : Nesting) {p : String} {x : TokenKind × String} (param : ParameterWord p x) :
    n.read x = n := by
  cases param with
  | name => simp [read, step, Token.isOpenBracket, Token.isCloseBracket, Token.isPunct, Token.is]
  | unused => rfl

theorem foldl_parameterNames (n : Nesting) {ps : List String} {ws : List (TokenKind × String)}
    (params : ParameterNames ps ws) :
    ws.foldl read n = { n with brackets := n.brackets - 1 } := by
  induction params with
  | last param =>
    rw [List.foldl_cons, read_parameter n param]
    rfl
  | comma param _ ih =>
    rw [List.foldl_cons, read_parameter n param]
    exact ih

theorem foldl_parameterWords (n : Nesting) {ps : List String} {ws : List (TokenKind × String)}
    (params : ParameterWords ps ws) : ws.foldl read n = n := by
  cases params with
  | none => rfl
  | empty => rfl
  | list names =>
    rw [List.foldl_cons, foldl_parameterNames _ names]
    rfl

theorem foldl_signature (n : Nesting) {outputs params : List String} {name : String}
    {ws : List (TokenKind × String)} (signature : SignatureWords outputs name params ws) :
    ws.foldl read n = { n with blocks := "function" :: n.blocks } := by
  obtain ⟨outputWords, parameterWords⟩ := signature
  have opened : n.read (.keyword, "function") = { n with blocks := "function" :: n.blocks } := by
    simp [read, step, keyword, isBlockWord, blockWords, opensBlock, openingWords]
  rw [List.foldl_cons, opened, List.foldl_append, foldl_outputWords _ outputWords, List.foldl_cons]
  have declared (m : Nesting) (text : String) : m.read (.nameFunction, text) = m := by
    simp [read, step, Token.isOpenBracket, Token.isCloseBracket, Token.isPunct, Token.is]
  rw [declared, foldl_parameterWords _ parameterWords]

end Nesting

theorem SignatureWords.kind_ne {outputs params : List String} {name : String}
    {ws : List (TokenKind × String)} (signature : SignatureWords outputs name params ws) :
    ∀ x ∈ ws, x.1 ≠ .newline ∧ x.1 ≠ .comment := by
  obtain ⟨outputWords, parameterWords⟩ := signature
  rw [List.forall_mem_cons, List.forall_mem_append, List.forall_mem_cons]
  exact ⟨by simp, fun x member => (outputWords.words.1 x member).kind_ne.2, by simp,
    fun x member => (parameterWords.kind_ne x member).2⟩

/-- The nesting in a `methods` block of a class. -/
def Nesting.methods : Nesting :=
  { blocks := ["methods", "classdef"] }

theorem MethodText.Tokens.calm {m : MethodText} {ts : List Token} (tokens : m.Tokens ts) :
    Calm .methods ts .methods := by
  obtain ⟨ws, line, blank, body, close, rfl, signature, isLine, isBlank, isBody, isEnd⟩ := tokens
  have inside : Nesting.Inside { blocks := ["function", "methods", "classdef"] } := by
    constructor <;> simp
  have first := isLine.calm (fun x member => (signature.kind_ne x member).1) (n := .methods) (.inr (by
    obtain ⟨_, _⟩ := signature
    rfl))
  rw [Nesting.foldl_signature _ signature] at first
  have second := isBlank.calm (by simp) (.inl inside.not_inMethods)
  obtain ⟨sheltered, kept⟩ := isBody.nested.sheltered inside rfl isBody.own
  have third : Calm { blocks := ["function", "methods", "classdef"] } body
      { blocks := ["function", "methods", "classdef"] } :=
    ⟨isBody.ended, settled_of_sheltered (fun l member => mem_tokenLines_ne member)
      (by rwa [flatten_tokenLines]), kept⟩
  have fourth := isEnd.calm (by simp) (.inl inside.not_inMethods)
  exact first.append (second.append (third.append fourth))

theorem MethodText.AllTokens.calm {ms : List MethodText} {ts : List Token} (tokens : AllTokens ms ts) :
    Calm .methods ts .methods := by
  induction tokens with
  | nil => exact ⟨rfl, trivial, rfl⟩
  | cons first _ ih => exact first.calm.append ih

theorem Nesting.read_name (n : Nesting) (text : String) : n.read (.name, text) = n := by
  simp [read, step, Token.isOpenBracket, Token.isCloseBracket, Token.isPunct, Token.is]

/-- The first line of a class. -/
theorem IsLine.calm_classdef {name : String} {opening : List Token}
    (line : IsLine [(.keyword, "classdef"), (.name, name)] opening) :
    Calm {} opening { blocks := ["classdef"] } := by
  have calm := line.calm (by simp) (n := {}) (.inl rfl)
  rwa [List.foldl_cons, List.foldl_cons, Nesting.read_name] at calm

theorem ClassText.Tokens.calm {c : ClassText} {ts : List Token} (tokens : c.Tokens ts) :
    Calm {} ts {} := by
  obtain ⟨opening, methodsOpening, methods, methodsClosing, propertiesOpening, property,
    propertiesClosing, closing, rfl, first, second, all, third, fourth, fifth, sixth, last⟩ := tokens
  have inside : Calm { blocks := ["properties", "classdef"] } property
      { blocks := ["properties", "classdef"] } := by
    have line := fifth.calm (by simp) (n := { blocks := ["properties", "classdef"] }) (.inl rfl)
    rwa [List.foldl_cons, Nesting.read_name] at line
  exact first.calm_classdef.append ((second.calm (by simp) (.inl rfl)).append (all.calm.append
    ((third.calm (by simp) (.inr rfl)).append ((fourth.calm (by simp) (.inl rfl)).append
      (inside.append ((sixth.calm (by simp) (.inl rfl)).append (last.calm (by simp) (.inl rfl))))))))

end MatlabOutline
