import MatlabOutline.Proofs.Declaration.ClassOpening
import MatlabOutline.Proofs.Declaration.StubText

/-!
Method declarations without a body, one on each line of a `methods` block. Main statements: each of them is
written as a function on its line, whatever stands around it (`StubText.expands_lines`), and these functions
are read in order (`Reader.methodsFrom_stubs`).
-/

namespace MatlabOutline

/-- From nesting `n` on whole lines are written as `text`, and nesting `after` is reached. -/
structure Expands (n : Nesting) (ts : List Token) (text : String) (after : Nesting) : Prop where
  ended : ts.getLast?.all Token.isNewline = true
  written : ∀ lines, String.join (expandLines n (tokenLines ts ++ lines)) =
    text ++ String.join (expandLines after lines)

namespace Expands

variable {n m after : Nesting} {ts us : List Token} {first second : String}

theorem of_calm (calm : Calm n ts after) : Expands n ts (Token.concat ts) after where
  ended := calm.ended
  written lines := by
    rw [expandLines_settled_append calm.settled, String.join_append, join_map_concat, flatten_tokenLines, calm.reached]

theorem kept {piece : String} (calm : Calm n ts after)
    (same : ts.map Token.segment = (tokenize piece).map Token.segment) : Expands n ts piece after := by
  rw [← concat_tokenize piece, ← Token.concat_of_segments same]
  exact of_calm calm

theorem append (front : Expands n ts first m) (back : Expands m us second after) :
    Expands n (ts ++ us) (first ++ second) after where
  ended := by
    rcases List.eq_nil_or_concat us with rfl | ⟨us, e, rfl⟩
    · simpa using front.ended
    · simpa using back.ended
  written lines := by
    rw [tokenLines_append front.ended, List.append_assoc, front.written, back.written, String.append_assoc]

/-- Lines that are all there is. -/
theorem expandStubs_eq {code : String} (all : Expands {} (tokenize code) first after) : expandStubs code = first := by
  have written := all.written []
  rw [List.append_nil] at written
  rw [expandStubs, written]
  simp [expandLines]

end Expands

namespace StubText

/-- A declaration is written as a function on its line. -/
theorem expands {s : StubText} {ts : List Token} (read : ts.map Token.lexeme = s.lexemes) :
    Expands .methods ts s.expanded .methods := by
  obtain ⟨line, ended⟩ := s.rest.tokenLines_of_lexemes (read.trans s.lexemes_eq) fun x member =>
    (TokenKind.ne_of_isInline (s.inline_line x member)).1
  refine ⟨ended, fun lines => ?_⟩
  rw [line, List.singleton_append, expandLines, if_pos (by simp [isStubLine_tokens read]; rfl), expandStub_tokens read,
    String.join_cons]

theorem endsLine_text (s : StubText) : endsLine s.text = true :=
  (expands (s := s) (by rw [Token.map_lexeme_tokenize, s.lexemes_text])).ended

theorem endsLine_expanded (s : StubText) : endsLine s.expanded = true := by
  obtain ⟨_, front, remark, e, cut, -, -, -, -, ends⟩ := s.tokens_expanded rfl
  simp [endsLine, cut, Token.isNewline, ends]

/-- A declaration stands on one line and declares no function. -/
theorem forall_of_lexemes {s : StubText} {ts : List Token} (read : ts.map Token.lexeme = s.lexemes) :
    ∀ t ∈ ts, t.isContinuation = false ∧ t.kind ≠ .nameFunction :=
  s.rest.forall_of_lexemes (read.trans s.lexemes_eq) fun x member =>
    have kind := TokenKind.ne_of_isInline (s.inline_line x member)
    ⟨kind.2.1, kind.2.2.2⟩

/-- Each declaration is written on its line. -/
theorem expands_lines (ss : List StubText) {ts : List Token}
    (read : ts.map Token.lexeme = (ss.map StubText.lexemes).flatten) :
    Expands .methods ts (String.join (ss.map expanded)) .methods := by
  induction ss generalizing ts with
  | nil =>
    obtain rfl := List.map_eq_nil_iff.mp read
    exact .of_calm ⟨rfl, trivial, rfl⟩
  | cons s ss ih =>
    obtain ⟨line, below, rfl, first, rest⟩ := List.map_eq_append_iff.mp read
    rw [List.map_cons, String.join_cons]
    exact (expands first).append (ih rest)

/-- What the declaration says of the method. -/
def functionDoc (s : StubText) (scope : String) : FunctionDoc where
  name := String.ofList s.name.chars
  scope := scope
  doc := s.rest.comment.bind fun t => Docstring.ofComments [t]
  args := .ofNames s.parameters.names
  returns := .ofNames s.outputs.names

end StubText

namespace Reader

/-- The words of a short function: those of its signature, and the `; end` behind them. -/
theorem exists_shortEnd {line : List Token} {ws : List (TokenKind × String)}
    (read : words line = ws ++ [(.punctuation, ";"), (.keyword, "end")]) :
    ∃ front semicolon gap close last, line = front ++ semicolon :: (gap ++ close :: last) ∧ words front = ws ∧
      semicolon.segment = (.punctuation, ";") ∧ (∀ t ∈ gap, t.isWhitespace = true) ∧
      close.segment = (.keyword, "end") ∧ words last = [] := by
  obtain ⟨front, back, rfl, signature, behind⟩ := words_append_inv read
  obtain ⟨gap, semicolon, more, rfl, white, -, mark, further⟩ := words_cons_inv behind
  obtain ⟨gap', close, last, rfl, white', -, closing, blank⟩ := words_cons_inv further
  have nothing : words gap = [] := by simpa [words] using white
  refine ⟨front ++ gap, semicolon, gap', close, last, by simp, ?_, mark, white', closing, blank⟩
  rw [words_append, signature, nothing, List.append_nil]

section ShortEnd

variable {blank gap : List Token} {semicolon close : Token} (mark : semicolon.segment = (.punctuation, ";"))
  (white : ∀ t ∈ gap, t.isWhitespace = true)
include mark white

/-- The line of the signature is finished at the `end` on it. -/
theorem finishLine_shortEnd (blanks : ∀ t ∈ blank, t.isWhitespace = true)
    (closing : close.segment = (.keyword, "end")) (passed rest : List Token) :
    Cursor.finishLine ⟨passed, blank ++ semicolon :: (gap ++ close :: rest)⟩ =
      (none, ⟨(blank ++ semicolon :: gap).reverse ++ passed, close :: rest⟩) := by
  obtain ⟨kind, mark⟩ := Prod.mk.inj mark
  obtain ⟨kind', -⟩ := Prod.mk.inj closing
  have marks : ∀ t ∈ blank ++ semicolon :: gap, (t.isWhitespace || t.isPunct "," || t.isPunct ";") = true := by
    rw [List.forall_mem_append, List.forall_mem_cons]
    exact ⟨fun t member => by simp [blanks t member], by simp [Token.isPunct, Token.is, kind, mark],
      fun t member => by simp [white t member]⟩
  have separated : Cursor.skipSeparators ⟨passed, (blank ++ semicolon :: gap) ++ close :: rest⟩ =
      ⟨(blank ++ semicolon :: gap).reverse ++ passed, close :: rest⟩ :=
    Cursor.skip_over marks (by simp [Token.isPunct, Token.is, Token.isWhitespace, kind'])
      (by simp [Token.isContinuation, kind']) passed rest
  rw [List.append_assoc, List.cons_append] at separated
  rw [Cursor.finishLine, separated]
  simp [Cursor.take?, Cursor.skipIf, Token.isRemark, Token.isNewline, kind']

/-- The token before the `end` is no line end. -/
theorem sharesLine_shortEnd (passed rest : List Token) :
    sharesLine ⟨(blank ++ semicolon :: gap).reverse ++ passed, close :: rest⟩ = true := by
  rcases List.eq_nil_or_concat gap with rfl | ⟨front, w, rfl⟩
  · obtain ⟨kind, -⟩ := Prod.mk.inj mark
    simp [sharesLine, Cursor.atEnd, Cursor.previous, Token.isNewline, kind]
  · have blank := white w (by simp)
    rw [Token.isWhitespace, beq_iff_eq] at blank
    simp [sharesLine, Cursor.atEnd, Cursor.previous, Token.isNewline, blank]

end ShortEnd

/-- A function that ends on the line of its signature is documented by the comment behind its `end`. -/
theorem function_of_line {outputs params : List String} {name : String} {outs list : List (TokenKind × String)}
    (outputWords : OutputWords outputs outs) (parameterWords : ParameterWords params list) {f e : Token}
    {line tail : List Token} (keyword : f.isKeyword "function" = true)
    (read : words line = outs ++ (.nameFunction, name) :: (list ++ [(.punctuation, ";"), (.keyword, "end")]))
    {remark : Option Token} (own : ∀ t ∈ remark, t.isRemark = true) (ends : e.kind = .newline)
    (code : ∀ passed, (Cursor.skipWhitespace ⟨passed, tail⟩).take? Token.isRemark = none) (scope : String)
    (notes : List Note) (passed : List Token) :
    ∃ passed', function scope none ⟨⟨passed, f :: (line ++ (remark.toList ++ e :: tail))⟩, notes⟩ =
      .ok ({ name := name, scope := scope, doc := (remark.map Token.text).bind fun t => Docstring.ofComments [t],
              args := .ofNames params, returns := .ofNames outputs }, ⟨⟨passed', tail⟩, notes⟩) := by
  rw [← List.cons_append, ← List.append_assoc] at read
  obtain ⟨front, semicolon, gap, close, last, rfl, signature, mark, white, closing, blank⟩ := exists_shortEnd read
  generalize below : last ++ (remark.toList ++ e :: tail) = rest
  have shape : front ++ semicolon :: (gap ++ close :: last) ++ (remark.toList ++ e :: tail) =
      front ++ semicolon :: (gap ++ close :: rest) := by simp [← below]
  obtain ⟨kind, text⟩ := Prod.mk.inj mark
  have solid : semicolon.isWhitespace = false := by simp [Token.isWhitespace, kind]
  have free : ∀ other ∈ (none : Option String), name = other := by simp
  obtain ⟨passed₂, rest₂, blank₂, signed⟩ := function_of_words outputWords parameterWords keyword signature solid
    (by simp [Token.isContinuation, kind]) (by simp [Token.isPunct, Token.is, text]) free scope notes passed
    (gap ++ close :: rest)
  have finished := finishLine_shortEnd mark white (blank_of_words blank₂) closing passed₂ rest
  rw [shape, signed finished, if_pos (sharesLine_shortEnd mark white passed₂ rest)]
  generalize (rest₂ ++ semicolon :: gap).reverse ++ passed₂ = passed₃
  have body := Cursor.skipBlock_nested .nil (Token.isKeyword_of_segment closing) passed₃ rest
  have documented := Cursor.finishLine_remark blank own ends (close :: passed₃) tail
  rw [List.nil_append, List.reverse_nil, List.nil_append] at body
  rw [below] at documented
  simp only [shortBody, body, documented, withCursor]
  refine ⟨e :: ((last ++ remark.toList).reverse ++ close :: passed₃), ?_⟩
  cases remark with
  | none =>
    have silent : Docstring.ofComments [] = none := rfl
    simp only [Cursor.commentRun_none (code _), silent, Option.map_none, Option.bind_none]
  | some t => simp only [Option.map_some, Option.bind_some]

/-- A declaration is read from its line as a method. -/
theorem methodsFrom_stub {s : StubText} {ts : List Token} (tokens : s.Tokens ts) {tail : List Token}
    (code : ∀ passed, (Cursor.skipWhitespace ⟨passed, tail⟩).take? Token.isRemark = none) (attrs : Table AttrValue)
    (c : ClassDoc) (passed : List Token) (notes : List Note) :
    ∃ passed', methodsFrom attrs c ⟨⟨passed, ts ++ tail⟩, notes⟩ =
      methodsFrom attrs (addMethod c attrs (s.functionDoc c.scope)) ⟨⟨passed', tail⟩, notes⟩ := by
  obtain ⟨ws, front, remark, e, rfl, signature, read, said, own, ends⟩ := tokens
  obtain ⟨outputWords, parameterWords⟩ := signature
  rw [List.cons_append, List.append_assoc, List.cons_append] at read
  obtain ⟨passed₁, f, line, here, first, further⟩ := Cursor.skipSpacing_word (List.forall_mem_nil _) read (by simp)
    passed (remark.toList ++ e :: tail)
  have keyword : f.isKeyword "function" = true := Token.isKeyword_of_segment first
  obtain ⟨passed', known⟩ := function_of_line outputWords parameterWords keyword further own ends code c.scope notes
    passed₁
  rw [said] at known
  refine ⟨passed', ?_⟩
  have shape : front ++ (remark.toList ++ [e]) ++ tail = [] ++ (front ++ (remark.toList ++ e :: tail)) := by simp
  rw [shape]
  exact methodsFrom_function (by rw [move, here]) keyword attrs known

/-- No comment stands before a declaration or behind the last one. -/
theorem take?_remark_of_stubs (ss : List StubText) {ts : List Token}
    (same : ts.map Token.segment = ((ss.map fun s => tokenize s.expanded).flatten).map Token.segment)
    {close : List Token} (ending : IsLine [(.keyword, "end")] close) (passed tail : List Token) :
    (Cursor.skipWhitespace ⟨passed, ts ++ (close ++ tail)⟩).take? Token.isRemark = none := by
  rcases ss with _ | ⟨s, ss⟩
  · obtain rfl := List.map_eq_nil_iff.mp same
    exact take?_remark_of_line ending (by simp) passed tail
  · rw [List.map_cons, List.flatten_cons, List.map_append] at same
    obtain ⟨line, below, rfl, first, -⟩ := List.map_eq_append_iff.mp same
    obtain ⟨ws, front, remark, e, rfl, ⟨-, -⟩, read, -⟩ := s.tokens_expanded first
    rw [List.append_assoc, List.append_assoc]
    exact take?_remark_of_words read (by simp) passed _

/-- A block of declarations gives one method for each of them, in order. -/
theorem methodsFrom_stubs (ss : List StubText) {ts : List Token}
    (same : ts.map Token.segment = ((ss.map fun s => tokenize s.expanded).flatten).map Token.segment)
    {close : List Token} (ending : IsLine [(.keyword, "end")] close) (attrs : Table AttrValue) (c : ClassDoc)
    (passed tail : List Token) (notes : List Note) :
    ∃ passed' gap, methodsFrom attrs c ⟨⟨passed, ts ++ (close ++ tail)⟩, notes⟩ =
        .ok ((ss.map fun s => s.functionDoc c.scope).foldl (fun c f => addMethod c attrs f) c,
          ⟨⟨passed', gap ++ tail⟩, notes⟩) ∧
      ∀ g ∈ gap, g.isSpacing = true := by
  induction ss generalizing ts c passed with
  | nil =>
    obtain rfl := List.map_eq_nil_iff.mp same
    exact methodsFrom_close ending (List.forall_mem_nil _) attrs c passed tail notes
  | cons s ss ih =>
    rw [List.map_cons, List.flatten_cons, List.map_append] at same
    obtain ⟨line, below, rfl, first, rest⟩ := List.map_eq_append_iff.mp same
    obtain ⟨passed₁, one⟩ := methodsFrom_stub (s.tokens_expanded first)
      (fun passed => take?_remark_of_stubs ss rest ending passed tail) attrs c passed notes
    obtain ⟨passed', gap, all, gaps⟩ := ih rest (addMethod c attrs (s.functionDoc c.scope)) passed₁
    refine ⟨passed', gap, ?_, gaps⟩
    rw [List.append_assoc, one, all]
    rfl

end Reader

end MatlabOutline
