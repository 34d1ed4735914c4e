import MatlabOutline.Normalize.Header
import MatlabOutline.Proofs.Declaration.SignatureLine

/-!
Bodies of functions are passed over whatever they hold, as long as they are well nested. Main
statement: a function is read from its signature line and the comment lines below it
(`Reader.function_of_signature`).
-/

namespace MatlabOutline

namespace Token

theorem kind_of_isHeader {t : Token} (quiet : t.isHeader = true) :
    t.kind ≠ .keyword ∧ t.kind ≠ .punctuation := by
  simp only [isHeader, isSpacing, isWhitespace, isNewline, Bool.or_eq_true, beq_iff_eq] at quiet
  rcases quiet with (kind | kind) | kind <;> simp [kind]

theorem isHeader_of_isWhitespace {t : Token} (blank : t.isWhitespace = true) : t.isHeader = true := by
  simp [isHeader, isSpacing, blank]

end Token

theorem Nested.cons_header {t : Token} (quiet : t.isHeader = true) {b : List Token}
    (nested : Nested Cursor.isOpener b) : Nested Cursor.isOpener (t :: b) := by
  obtain ⟨keyword, punctuation⟩ := Token.kind_of_isHeader quiet
  refine .plain ?_ ?_ (Cursor.not_isOpener_of_kind keyword) (Token.not_isKeyword_of_kind keyword _) nested
  · simp [Token.isOpenBracket, Token.isPunct, Token.is, punctuation]
  · simp [Token.isCloseBracket, Token.isPunct, Token.is, punctuation]

theorem Nested.header {ts : List Token} (quiet : ∀ t ∈ ts, t.isHeader = true) :
    Nested Cursor.isOpener ts := by
  induction ts with
  | nil => exact .nil
  | cons t ts ih =>
    simp only [List.forall_mem_cons] at quiet
    exact .cons_header quiet.1 (ih quiet.2)

namespace Cursor

theorem skipFrom_split (p : Token → Bool) (joined : Bool) (passed ts : List Token) :
    ∃ gap rest, ts = gap ++ rest ∧ skipFrom p joined passed ts = ⟨gap.reverse ++ passed, rest⟩ ∧
      ∀ g ∈ gap, p g = true ∨ g.isContinuation = true ∨ g.isNewline = true := by
  fun_induction skipFrom p joined passed ts with
  | case1 => exact ⟨[], [], rfl, rfl, by simp⟩
  | case2 joined passed t r own ih =>
    obtain ⟨gap, rest, rfl, result, all⟩ := ih
    refine ⟨t :: gap, rest, rfl, by simp [result], ?_⟩
    simp only [Bool.or_eq_true, Bool.and_eq_true] at own
    rw [List.forall_mem_cons]
    exact ⟨own.imp_right fun h => .inr h.2, all⟩
  | case3 joined passed t r _ marker ih =>
    obtain ⟨gap, rest, rfl, result, all⟩ := ih
    refine ⟨t :: gap, rest, rfl, by simp [result], ?_⟩
    rw [List.forall_mem_cons]
    exact ⟨.inr (.inl marker), all⟩
  | case4 joined passed t r => exact ⟨[], t :: r, rfl, rfl, by simp⟩

/-- What is passed is a run of tokens of `p`, continuation markers and line ends. -/
theorem skip_split (p : Token → Bool) (c : Cursor) :
    ∃ gap rest, c.rest = gap ++ rest ∧ c.skip p = ⟨gap.reverse ++ c.passed, rest⟩ ∧
      ∀ g ∈ gap, p g = true ∨ g.isContinuation = true ∨ g.isNewline = true :=
  skipFrom_split p false c.passed c.rest

theorem skip_header_split (c : Cursor) :
    ∃ gap rest, c.rest = gap ++ rest ∧ c.skip Token.isHeader = ⟨gap.reverse ++ c.passed, rest⟩ ∧
      ∀ g ∈ gap, g.isHeader = true := by
  obtain ⟨gap, rest, cut, moved, gaps⟩ := c.skip_split Token.isHeader
  refine ⟨gap, rest, cut, moved, ?_⟩
  intro g member
  rcases gaps g member with header | marker | newline
  · exact header
  · simp only [Token.isContinuation, Bool.and_eq_true] at marker
    simp [Token.isHeader, marker.1]
  · simp [Token.isHeader, Token.isSpacing, newline]

/-- White space and comments in front do not matter for where a block ends. -/
theorem skipBlock_skip_header (c : Cursor) : (c.skip Token.isHeader).skipBlock = c.skipBlock := by
  obtain ⟨gap, rest, cut, moved, quiet⟩ := c.skip_header_split
  rw [moved, skipBlock, skipBlock, cut, skipBlockFrom_nested (.header quiet)]

/-- White space and comments end at the latest before a keyword. -/
theorem peek_skip_header {ts : List Token} {k : Token} (keyword : k.kind = .keyword)
    (passed tail : List Token) {t : Token}
    (here : (skip ⟨passed, ts ++ k :: tail⟩ Token.isHeader).peek = some t) : t ∈ ts ++ [k] := by
  obtain ⟨gap, rest, cut, moved, quiet⟩ := skip_header_split ⟨passed, ts ++ k :: tail⟩
  rw [moved] at here
  rcases List.append_eq_append_iff.mp cut with ⟨further, rfl, last⟩ | ⟨further, rfl, rfl⟩
  · rcases further with _ | ⟨u, further⟩
    · obtain rfl : rest = k :: tail := by simpa using last.symm
      simp [peek] at here
      simp [here]
    · obtain ⟨rfl, _⟩ := List.cons.inj last
      exact absurd keyword (Token.kind_of_isHeader (quiet k (by simp))).1
  · rcases further with _ | ⟨u, further⟩
    · simp [peek] at here
      simp [here]
    · simp [peek] at here
      simp [here]

/-- The rest of a signature line is white space up to its line end. -/
theorem finishLine_blank {ts : List Token} (blank : words ts = []) {e : Token} (ends : e.kind = .newline)
    (passed tail : List Token) :
    finishLine ⟨passed, ts ++ e :: tail⟩ = (none, ⟨e :: (ts.reverse ++ passed), tail⟩) := by
  have moved : skipSeparators ⟨passed, ts ++ e :: tail⟩ = ⟨ts.reverse ++ passed, e :: tail⟩ := by
    apply skip_over
    · intro g member
      simp [blank_of_words blank g member]
    · simp [Token.isWhitespace, Token.isPunct, Token.is, ends]
    · simp [Token.isContinuation, ends]
  rw [finishLine, moved]
  simp [take?, skipIf, Token.isRemark, Token.isNewline, ends]

/-- The rest of a signature line may hold a comment. -/
theorem finishLine_remark {ts : List Token} (blank : words ts = []) {remark : Option Token}
    (own : ∀ t ∈ remark, t.isRemark = true) {e : Token} (ends : e.kind = .newline) (passed tail : List Token) :
    finishLine ⟨passed, ts ++ (remark.toList ++ e :: tail)⟩ =
      (remark, ⟨e :: ((ts ++ remark.toList).reverse ++ passed), tail⟩) := by
  cases remark with
  | none => simpa using finishLine_blank blank ends passed tail
  | some t =>
    have comment := own t rfl
    have kind : t.kind = .comment ∧ t.isContinuation = false := by simpa [Token.isRemark] using comment
    have moved : skipSeparators ⟨passed, ts ++ t :: e :: tail⟩ = ⟨ts.reverse ++ passed, t :: e :: tail⟩ := by
      apply skip_over
      · intro g member
        simp [blank_of_words blank g member]
      · simp [Token.isWhitespace, Token.isPunct, Token.is, kind.1]
      · exact kind.2
    rw [finishLine, Option.toList_some, List.singleton_append, moved]
    simp [take?, skipIf, comment, Token.isNewline, ends]

/-- Neither white space nor a parameter list begins what ends a line. -/
theorem exists_ending {remark : Option Token} (own : ∀ t ∈ remark, t.isRemark = true) {e : Token}
    (ends : e.kind = .newline) (rest : List Token) :
    ∃ u us, remark.toList ++ e :: rest = u :: us ∧ u.isWhitespace = false ∧ u.isContinuation = false ∧
      u.isPunct "(" = false := by
  cases remark with
  | none =>
    exact ⟨e, rest, rfl, by simp [Token.isWhitespace, ends], by simp [Token.isContinuation, ends],
      by simp [Token.isPunct, Token.is, ends]⟩
  | some t =>
    have kind : t.kind = .comment ∧ t.isContinuation = false := by simpa [Token.isRemark] using own t rfl
    exact ⟨t, e :: rest, rfl, by simp [Token.isWhitespace, kind.1], kind.2, by simp [Token.isPunct, Token.is, kind.1]⟩

theorem commentRun_none {c : Cursor} (code : c.skipWhitespace.take? Token.isRemark = none) :
    c.commentRun = ([], c) := by
  rw [commentRun.eq_def]
  split
  · next taken => simp [code] at taken
  · rfl

/-- Lines that hold these comments and nothing else. -/
inductive CommentLines : List Token → List String → Prop
  | nil : CommentLines [] []
  | cons {gap ts : List Token} {t e : Token} {cs : List String} : words gap = [] → t.isRemark = true →
      e.kind = .newline → CommentLines ts cs → CommentLines (gap ++ t :: e :: ts) (t.text :: cs)

/-- A run of comment lines is read up to the first other line. -/
theorem commentRun_lines {ts : List Token} {cs : List String} (lines : CommentLines ts cs) {tail : List Token}
    (code : ∀ passed, (skipWhitespace ⟨passed, tail⟩).take? Token.isRemark = none) (passed : List Token) :
    commentRun ⟨passed, ts ++ tail⟩ = (cs, ⟨ts.reverse ++ passed, tail⟩) := by
  induction lines generalizing passed with
  | nil => exact commentRun_none (code passed)
  | @cons gap ts t e cs blank remark ends _ ih =>
    have kind : t.kind = .comment ∧ t.isContinuation = false := by simpa [Token.isRemark] using remark
    have moved : skipWhitespace ⟨passed, gap ++ t :: (e :: (ts ++ tail))⟩ =
        ⟨gap.reverse ++ passed, t :: (e :: (ts ++ tail))⟩ :=
      skip_over (blank_of_words blank) (by simp [Token.isWhitespace, kind.1]) kind.2 _ _
    have taken : (skipWhitespace ⟨passed, gap ++ t :: (e :: (ts ++ tail))⟩).take? Token.isRemark =
        some (t, ⟨t :: (gap.reverse ++ passed), e :: (ts ++ tail)⟩) := by
      simp [moved, take?, remark]
    have next : skipIf ⟨t :: (gap.reverse ++ passed), e :: (ts ++ tail)⟩ Token.isNewline =
        ⟨e :: t :: (gap.reverse ++ passed), ts ++ tail⟩ := by
      simp [skipIf, take?, Token.isNewline, ends]
    rw [List.append_assoc, List.cons_append, List.cons_append, commentRun.eq_def]
    split
    · next u c' found =>
      obtain ⟨rfl, rfl⟩ := Prod.mk.inj (Option.some.inj (taken.symm.trans found))
      rw [next, ih]
      simp
    · next none => simp [taken] at none

end Cursor

namespace Reader

/-- A body that does not begin with an `arguments` block specifies no argument. -/
theorem argumentBlocks_none (f : FunctionDoc) (r : Reader)
    (other : ∀ t, (r.cursor.skip Token.isHeader).peek = some t → t.isKeyword "arguments" = false) :
    r.argumentBlocks f = .ok (f, r.move (·.skip Token.isHeader)) := by
  rw [argumentBlocks.eq_def]
  simp only
  split
  · rfl
  · next t here =>
    rw [if_neg (by simp [other t here])]
    rfl

/-- A body behind a blank line is passed over and says nothing, except by the comment lines in front. -/
theorem longBody_nested {run : List Token} {comments : List String} (lines : Cursor.CommentLines run comments)
    {feed k : Token} {gap body : List Token} (blank : words gap = [])
    (feeds : feed.kind = .newline) (nested : Nested Cursor.isOpener body)
    (own : ∀ t ∈ body, t.isKeyword "arguments" = false) (close : k.isKeyword "end" = true)
    (f : FunctionDoc) (trailing : Option Token) (notes : List Note) (passed tail : List Token) :
    ∃ passed', longBody f trailing ⟨⟨passed, run ++ (gap ++ feed :: (body ++ k :: tail))⟩, notes⟩ =
      .ok ({ f with doc := docAfter trailing comments }, ⟨⟨passed', tail⟩, notes⟩) := by
  have quiet : ∀ t ∈ gap ++ [feed], t.isHeader = true := by
    rw [List.forall_mem_append, List.forall_mem_singleton]
    refine ⟨fun t member => Token.isHeader_of_isWhitespace (blank_of_words blank t member), ?_⟩
    simp [Token.isHeader, Token.isSpacing, Token.isNewline, feeds]
  have code (passed : List Token) : (Cursor.skipWhitespace
      ⟨passed, gap ++ feed :: (body ++ k :: tail)⟩).take? Token.isRemark = none := by
    rw [Cursor.skipWhitespace_blank blank feeds]
    simp [Cursor.take?, Token.isRemark, feeds]
  have read := Cursor.commentRun_lines lines code passed
  generalize run.reverse ++ passed = passed₁ at read
  have front : gap ++ feed :: (body ++ k :: tail) = (gap ++ [feed]) ++ body ++ k :: tail := by simp
  have specified (f : FunctionDoc) := argumentBlocks_none f
    ⟨⟨passed₁, gap ++ feed :: (body ++ k :: tail)⟩, notes⟩ (by
      intro t here
      rw [front] at here
      have member := Cursor.peek_skip_header (Token.kind_of_isKeyword close) passed₁ tail here
      rw [List.mem_append, List.mem_append, List.mem_singleton] at member
      rcases member with (header | inside) | rfl
      · exact Token.not_isKeyword_of_kind (Token.kind_of_isHeader (quiet t header)).1 _
      · exact own t inside
      · simp only [Token.isKeyword, Token.is, Bool.and_eq_true, beq_iff_eq] at close
        simp [Token.isKeyword, Token.is, close.2])
  have block := Cursor.skipBlock_nested ((Nested.header quiet).append nested) close passed₁ tail
  rw [← front] at block
  refine ⟨k :: ((gap ++ [feed] ++ body).reverse ++ passed₁), ?_⟩
  simp only [longBody, read, withCursor, specified, move, Cursor.skipBlock_skip_header, block]

/-- The words of a signature give the function, and what ends its line tells where the body begins. -/
theorem function_of_words {outputs params : List String} {name : String} {outs list : List (TokenKind × String)}
    (outputWords : OutputWords outputs outs) (parameterWords : ParameterWords params list) {f u : Token}
    {line : List Token} (keyword : f.isKeyword "function" = true)
    (read : words line = outs ++ (.nameFunction, name) :: list) (solid : u.isWhitespace = false)
    (code : u.isContinuation = false) (other : u.isPunct "(" = false) {expected : Option String}
    (same : ∀ other ∈ expected, name = other) (scope : String) (notes : List Note) (passed us : List Token) :
    ∃ passed' rest, words rest = [] ∧ ∀ {trailing : Option Token} {c : Cursor},
      Cursor.finishLine ⟨passed', rest ++ u :: us⟩ = (trailing, c) →
      function scope expected ⟨⟨passed, f :: (line ++ u :: us)⟩, notes⟩ =
        if sharesLine c then
          .ok (shortBody { name := name, scope := scope, args := .ofNames params, returns := .ofNames outputs }
            ⟨c, notes⟩)
        else
          longBody { name := name, scope := scope, args := .ofNames params, returns := .ofNames outputs } trailing
            ⟨c, notes⟩ := by
  obtain ⟨marks, outputsRead⟩ := outputWords.words
  obtain ⟨passed₁, t, rest₁, signed, text, list₁⟩ := Cursor.signature_words marks read [] (f :: passed) (u :: us)
  obtain ⟨passed₂, rest₂, listed, blank₂⟩ := Cursor.parameters_words parameterWords list₁ solid code other passed₁ us
  have first : Cursor.skipIf ⟨passed, f :: (line ++ u :: us)⟩ (·.isKeyword "function") =
      ⟨f :: passed, line ++ u :: us⟩ := by
    simp [Cursor.skipIf, Cursor.take?, keyword]
  have named (r : Reader) (line : Nat) : r.checkName expected line name = r := by
    cases expected with
    | none => rfl
    | some other => rw [checkName, if_pos (same other rfl)]
  refine ⟨passed₂, rest₂, blank₂, fun finished => ?_⟩
  rw [function, first, signed]
  simp only [text, named, withCursor, listed, finished, outputsRead, List.nil_append]

/-- A function with a blank line below its signature is read from its signature line and the comment lines
below it, whatever its body holds. -/
theorem function_of_signature {outputs params : List String} {name : String}
    {outs list : List (TokenKind × String)} (outputWords : OutputWords outputs outs)
    (parameterWords : ParameterWords params list) {f e feed k : Token} {line run gap body : List Token}
    (keyword : f.isKeyword "function" = true)
    (read : words line = outs ++ (.nameFunction, name) :: list) {remark : Option Token}
    (commented : ∀ t ∈ remark, t.isRemark = true) (ends : e.kind = .newline) {comments : List String}
    (lines : Cursor.CommentLines run comments) (blank : words gap = []) (feeds : feed.kind = .newline)
    (nested : Nested Cursor.isOpener body) (own : ∀ t ∈ body, t.isKeyword "arguments" = false)
    (close : k.isKeyword "end" = true) {expected : Option String} (same : ∀ other ∈ expected, name = other)
    (scope : String) (notes : List Note) (passed tail : List Token) :
    ∃ passed', function scope expected
        ⟨⟨passed, f :: (line ++ (remark.toList ++ e :: (run ++ (gap ++ feed :: (body ++ k :: tail)))))⟩, notes⟩ =
      .ok ({ name := name, scope := scope, doc := docAfter remark comments, args := .ofNames params,
              returns := .ofNames outputs }, ⟨⟨passed', tail⟩, notes⟩) := by
  generalize below : run ++ (gap ++ feed :: (body ++ k :: tail)) = rest
  obtain ⟨u, us, cut, solid, code, other⟩ := Cursor.exists_ending commented ends rest
  obtain ⟨passed₁, rest₁, blank₁, signed⟩ := function_of_words outputWords parameterWords keyword read solid code other
    same scope notes passed us
  have finished := Cursor.finishLine_remark blank₁ commented ends passed₁ rest
  generalize (rest₁ ++ remark.toList).reverse ++ passed₁ = passed₂ at finished
  have apart : sharesLine ⟨e :: passed₂, rest⟩ = false := by
    simp [sharesLine, Cursor.previous, Token.isNewline, ends]
  obtain ⟨passed', read⟩ := longBody_nested lines blank feeds nested own close
    { name := name, scope := scope, args := .ofNames params, returns := .ofNames outputs } remark notes
    (e :: passed₂) tail
  refine ⟨passed', ?_⟩
  rw [cut] at finished ⊢
  rw [signed finished, apart, if_neg (by simp), ← below]
  exact read

end Reader

end MatlabOutline
