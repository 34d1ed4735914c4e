import MatlabOutline.Proofs.Declaration.ClassOpening

/-!
Method bodies do not matter for what a class declares. Main statement: a class text is read as its
signature lines and its property say, for every choice of well nested bodies
(`parseUnit_classText`).
-/

namespace MatlabOutline

namespace Reader

section Blocks

variable {gap opening close : List Token} (gaps : ∀ g ∈ gap, g.isSpacing = true)
  (ending : IsLine [(.keyword, "end")] close) (passed tail : List Token) (notes : List Note)
include gaps ending

theorem classBody_methods (header : IsLine [(.keyword, "methods")] opening) {ms : List MethodText}
    {methods : List Token} (tokens : MethodText.AllTokens ms methods) (c : ClassDoc) :
    ∃ passed' gap', classBody c ⟨⟨passed, gap ++ (opening ++ (methods ++ (close ++ tail)))⟩, notes⟩ =
        classBody ((ms.map fun m => m.functionDoc c.scope).foldl (fun c f => addMethod c {} f) c)
          ⟨⟨passed', gap' ++ tail⟩, notes⟩ ∧
      ∀ g ∈ gap', g.isSpacing = true := by
  obtain ⟨front, e, rfl, read, ends⟩ := header
  obtain ⟨passed₁, t, rest, here, first, blank⟩ := Cursor.skipSpacing_word gaps read (by simp) passed
    (e :: (methods ++ (close ++ tail)))
  obtain ⟨kind, text⟩ := Prod.mk.inj first
  obtain ⟨passed₂, headed⟩ := blockHeader_blank blank ends .ofMethod t passed₁
    (methods ++ (close ++ tail)) notes
  have none : ∀ g ∈ ([] : List Token), g.isSpacing = true := by simp
  obtain ⟨passed', gap', all, gaps'⟩ := methodsFrom_all tokens ending none {} c passed₂ tail notes
  refine ⟨passed', gap', ?_, gaps'⟩
  rw [List.append_assoc, List.singleton_append]
  apply classBody_block (by rw [move, here]) kind (by simp [text])
  rw [List.nil_append] at all
  simp [memberBlock, text, methodsBlock, headed, all]

theorem classBody_property (header : IsLine [(.keyword, "properties")] opening) {name : String}
    {line : List Token} (one : IsLine [(.name, name)] line) (c : ClassDoc) :
    ∃ passed' gap', classBody c ⟨⟨passed, gap ++ (opening ++ (line ++ (close ++ tail)))⟩, notes⟩ =
        classBody
          { c with
            properties :=
              c.properties.insert name { name := name, className := c.name, scope := c.scope } }
          ⟨⟨passed', gap' ++ tail⟩, notes⟩ ∧
      ∀ g ∈ gap', g.isSpacing = true := by
  obtain ⟨passed₁, known⟩ := classBody_entries gaps passed notes header (line ++ (close ++ tail))
  obtain ⟨entry, passed', gap', all, named, plain, gaps'⟩ := entries_bare one ending passed₁ tail notes
  refine ⟨passed', gap', ?_, gaps'⟩
  rw [known c all]
  simp [addProperties, propertyOf, named, plain]

end Blocks

/-- A class is read from the words of its lines. -/
theorem classDeclaration_tokens {c : ClassText} {ts : List Token} (tokens : c.Tokens ts)
    (place : Nat → Location) (scope : String) :
    ∃ front t rest cursor, ts = front ++ t :: rest ∧ words front = [(.keyword, "classdef")] ∧
      classDeclaration place scope c.name { cursor := (Cursor.ofTokens ts).skipSpacing } =
        .ok ({ c.doc {} scope with location := place t.line }, ⟨cursor, []⟩) := by
  obtain ⟨opening, methodsOpening, methods, methodsClosing, propertiesOpening, property,
    propertiesClosing, closing, rfl, first, second, all, third, fourth, fifth, sixth, last⟩ := tokens
  obtain ⟨front, t, rest, passed₁, cut, read, declared⟩ := classDeclaration_opening first
    (fun passed => take?_remark_of_line second (by simp) passed _) place scope
  have none : ∀ g ∈ ([] : List Token), g.isSpacing = true := by simp
  obtain ⟨passed₂, gap₂, methodsRead, gaps₂⟩ := classBody_methods none third passed₁
    (propertiesOpening ++ (property ++ (propertiesClosing ++ closing))) [] second all
    { name := c.name, scope := scope, location := place t.line }
  obtain ⟨passed₃, gap₃, propertyRead, gaps₃⟩ := classBody_property gaps₂ sixth passed₂ closing [] fourth fifth
    ((c.methods.map fun m => m.functionDoc scope).foldl (fun c f => addMethod c {} f)
      { name := c.name, scope := scope, location := place t.line })
  obtain ⟨cursor, closed⟩ := classBody_close gaps₃ passed₃ [] last _
  refine ⟨front, t, rest, cursor, cut, read, ?_⟩
  rw [List.nil_append] at methodsRead
  rw [declared, methodsRead, propertyRead, closed, foldl_addMethod]
  · simp only [List.map_map]
    rfl
  · rw [List.map_map]
    exact c.distinct

end Reader

theorem MethodText.pieces_whole (m : MethodText) :
    ∀ p ∈ m.pieces, endsLine p = true ∧ ∀ t ∈ tokenize p, t.isContinuation = false := by
  obtain ⟨ws, signature, line⟩ := m.signature.isSignature
  simp only [pieces, List.forall_mem_cons, List.not_mem_nil, false_imp_iff, implies_true, and_true]
  exact ⟨⟨line.endsLine, line.unbroken fun x member => (signature.kind_ne x member).2⟩,
    ⟨m.blank.isLine.endsLine, m.blank.isLine.unbroken (by simp)⟩,
    ⟨m.body.isBody.ended, m.body.unbroken⟩,
    ⟨m.closing.isLine.endsLine, m.closing.isLine.unbroken (by simp)⟩⟩

namespace ClassText

theorem pieces_whole (c : ClassText) :
    ∀ p ∈ c.pieces, endsLine p = true ∧ ∀ t ∈ tokenize p, t.isContinuation = false := by
  have line {ws : List (TokenKind × String)} (l : Line ws) (code : ∀ x ∈ ws, x.1 ≠ .comment) :
      endsLine l.text = true ∧ ∀ t ∈ tokenize l.text, t.isContinuation = false :=
    ⟨l.isLine.endsLine, l.isLine.unbroken code⟩
  simp only [pieces, List.forall_mem_cons, List.forall_mem_append, List.not_mem_nil, false_imp_iff,
    implies_true, and_true]
  refine ⟨line _ (by simp), line _ (by simp), ?_, line _ (by simp), line _ (by simp), line _ (by simp),
    line _ (by simp), line _ (by simp)⟩
  intro p member
  obtain ⟨m, _, inside⟩ := List.mem_flatMap.mp member
  exact m.pieces_whole p inside

theorem map_segment_tokenize_text (c : ClassText) :
    (tokenize c.text).map Token.segment = ((c.pieces.map tokenize).flatten).map Token.segment :=
  map_segment_tokenize_join fun p member => (c.pieces_whole p member).1

theorem joinContinuedLines_text (c : ClassText) : joinContinuedLines c.text = c.text := by
  apply joinContinuedLines_of_unbroken
  intro t member
  have spelled : t.segment ∈ ((c.pieces.map tokenize).flatten).map Token.segment := by
    rw [← c.map_segment_tokenize_text]
    exact List.mem_map_of_mem member
  obtain ⟨u, inside, same⟩ := List.mem_map.mp spelled
  obtain ⟨ts, listed, within⟩ := List.mem_flatten.mp inside
  obtain ⟨p, piece, rfl⟩ := List.mem_map.mp listed
  have unbroken := (c.pieces_whole p piece).2 u within
  rwa [Token.isContinuation, Token.kind_of_segment same, Token.text_of_segment same] at unbroken

/-- The normal form of a class text only has its parameter lists completed. -/
theorem normalize_text (c : ClassText) : normalize c.text = completeSignatures c.text := by
  have tokens := c.tokens_relisted (relisted_completeSignatures fun p member => (c.pieces_whole p member).1)
  rw [normalize, c.joinContinuedLines_text]
  exact expandStubs_of_settled tokens.calm.settled

theorem tokens_text (c : ClassText) : c.Tokens (tokenize c.text) :=
  c.tokens_relisted (.of_segments c.map_segment_tokenize_text)

/-- The class keyword is the first token of a class text that is not white space. -/
theorem tokenize_text (c : ClassText) :
    ∃ gap k rest, tokenize c.text = gap ++ k :: rest ∧ (∀ g ∈ gap, g.isWhitespace = true) ∧
      k.isKeyword "classdef" = true := by
  obtain ⟨opening, _, _, _, _, _, _, _, cut, first, _⟩ := c.tokens_text
  exact first.exists_keyword cut

theorem removeHeader_text (c : ClassText) : removeHeader c.text = c.text := by
  obtain ⟨gap, k, rest, cut, white, keyword⟩ := c.tokenize_text
  exact removeHeader_of_classdef cut white keyword

theorem classify_text (c : ClassText) : classify (tokenize c.text) = .cls := by
  obtain ⟨gap, k, rest, cut, white, keyword⟩ := c.tokenize_text
  exact classify_of_classdef cut white keyword

end ClassText

/-- A class is read as its lines say, whatever the bodies of its methods hold: its methods are the
signatures in order, the property behind them is found, and nothing is reported. -/
theorem parseUnit_classText (c : ClassText) (location : Location) (scope : String) :
    parseUnit location c.text c.name scope = ⟨.ok (.cls (c.doc location scope)), []⟩ := by
  have tokens : c.Tokens (tokenize (completeSignatures c.text)) :=
    c.tokens_relisted (relisted_completeSignatures fun p member => (c.pieces_whole p member).1)
  obtain ⟨front, t, rest, cursor, cut, read, known⟩ :=
    Reader.classDeclaration_tokens tokens (placeOf location c.text) scope
  have line : t.line = 1 := by
    rw [line_of_tokenize cut, feeds_of_classdef (fun u member => by rw [cut]; simp [member]) read]
  have place : placeOf location c.text t.line = location.withLine 1 := by
    simp [placeOf, headerLines, c.removeHeader_text, line]
  rw [place] at known
  simp only [parseUnit, c.classify_text, readerOf, c.removeHeader_text, c.normalize_text, known]
  rfl

/-- A method whose body holds a block, and `end` as an index, in a string and in a comment. -/
def MethodText.sample : MethodText where
  signature :=
    { outputs := ["a", "b"]
      name := "f"
      params := ["x", "~"]
      text := "function [a, b] = f(x, ~)\n"
      isSignature := ⟨_, ⟨.list (.comma "a" (.last "b")), .list (.comma (.name "x") (.last .unused))⟩,
        .of_words (by decide +kernel) (by decide +kernel)⟩ }
  blank := ⟨"\n", .of_words (by decide +kernel) (by decide +kernel)⟩
  body :=
    { text := "if x(end)\ny = 'end'; % end\nend\n"
      isBody :=
        { ended := by decide +kernel
          own := by decide +kernel
          nested := by
            have cut : tokenize "if x(end)\ny = 'end'; % end\nend\n" =
                ⟨.keyword, "if", 1⟩ :: ([⟨.whitespace, " ", 1⟩, ⟨.name, "x", 1⟩, ⟨.punctuation, "(", 1⟩,
                  ⟨.keyword, "end", 1⟩, ⟨.punctuation, ")", 1⟩, ⟨.newline, "\n", 1⟩, ⟨.name, "y", 2⟩,
                  ⟨.whitespace, " ", 2⟩, ⟨.operator, "=", 2⟩, ⟨.whitespace, " ", 2⟩,
                  ⟨.string, "'end'", 2⟩, ⟨.punctuation, ";", 2⟩, ⟨.whitespace, " ", 2⟩,
                  ⟨.comment, "% end", 2⟩, ⟨.newline, "\n", 2⟩] ++
                  ⟨.keyword, "end", 3⟩ :: [⟨.newline, "\n", 3⟩]) := by
              decide +kernel
            rw [cut]
            refine .block rfl ?_ rfl (.plain rfl rfl rfl rfl .nil)
            refine .plain rfl rfl rfl rfl (.plain rfl rfl rfl rfl ?_)
            refine .group (g := [⟨.keyword, "end", 1⟩]) rfl (.plain rfl rfl rfl .nil) rfl ?_
            repeat refine .plain rfl rfl rfl rfl ?_
            exact .nil }
      unbroken := by decide +kernel }
  closing := ⟨"end\n", .of_words (by decide +kernel) (by decide +kernel)⟩

/-- An accessor whose body is empty. -/
def MethodText.accessor : MethodText where
  signature :=
    { outputs := []
      name := "set.P"
      params := ["o"]
      text := "    function set.P(o)\n"
      isSignature := ⟨_, ⟨.none, .list (.last (.name "o"))⟩, .of_words (by decide +kernel) (by decide +kernel)⟩ }
  blank := ⟨"\n", .of_words (by decide +kernel) (by decide +kernel)⟩
  body := ⟨"", ⟨by decide +kernel, by decide +kernel, by rw [show tokenize "" = [] by decide +kernel]; exact .nil⟩,
    by decide +kernel⟩
  closing := ⟨"    end\n", .of_words (by decide +kernel) (by decide +kernel)⟩

def ClassText.sample : ClassText where
  name := "C"
  property := "P"
  opening := ⟨"classdef C\n", .of_words (by decide +kernel) (by decide +kernel)⟩
  methodsOpening := ⟨"  methods\n", .of_words (by decide +kernel) (by decide +kernel)⟩
  methods := [.sample, .accessor]
  methodsClosing := ⟨"  end\n", .of_words (by decide +kernel) (by decide +kernel)⟩
  propertiesOpening := ⟨"  properties\n", .of_words (by decide +kernel) (by decide +kernel)⟩
  propertyLine := ⟨"    P\n", .of_words (by decide +kernel) (by decide +kernel)⟩
  propertiesClosing := ⟨"  end\n", .of_words (by decide +kernel) (by decide +kernel)⟩
  closing := ⟨"end\n", .of_words (by decide +kernel) (by decide +kernel)⟩
  distinct := by decide +kernel

/-- The members of a class whose first method has a nested body. -/
theorem parseUnit_sample :
    parseUnit {} ("classdef C\n  methods\nfunction [a, b] = f(x, ~)\n\nif x(end)\ny = 'end'; % end\nend\nend\n" ++
        "    function set.P(o)\n\n    end\n  end\n  properties\n    P\n  end\nend\n") "C" "pkg" =
      ⟨.ok (.cls
        { name := "C"
          scope := "pkg"
          methods := ⟨[
            ("f", { function := { name := "f", scope := "pkg", args := [{ name := "x" }, { name := "~" }],
                                  returns := [{ name := "a" }, { name := "b" }] }
                    className := "C" }),
            ("set_P", { function := { name := "set_P", scope := "pkg", args := [{ name := "o" }] }
                        className := "C" })]⟩
          properties := ⟨[("P", { name := "P", className := "C", scope := "pkg" })]⟩
          location := { lines := some (1, 1) } }), []⟩ := by
  have text : ClassText.sample.text =
      "classdef C\n  methods\nfunction [a, b] = f(x, ~)\n\nif x(end)\ny = 'end'; % end\nend\nend\n" ++
        "    function set.P(o)\n\n    end\n  end\n  properties\n    P\n  end\nend\n" := by
    decide +kernel
  have known := parseUnit_classText .sample {} "pkg"
  rw [text] at known
  exact known

end MatlabOutline
