import MatlabOutline.Proofs.Declaration.ClassNesting
import MatlabOutline.SourceUnit

/-!
Reading a class text. Main statement: the methods of a class are what their signature lines say, in
order, and the members behind them are found, for every choice of well nested bodies
(`parseUnit_classText`).
-/

namespace MatlabOutline

theorem Token.isKeyword_of_segment {t : Token} {word : String} (first : t.segment = (.keyword, word)) :
    t.isKeyword word = true := by
  simp [isKeyword, is, Prod.mk.inj first]

theorem spacing_of_blank {rest : List Token} (blank : words rest = []) {e : Token} (ends : e.kind = .newline) :
    ∀ g ∈ rest ++ [e], g.isSpacing = true := by
  rw [List.forall_mem_append, List.forall_mem_singleton]
  exact ⟨fun g member => by simp [Token.isSpacing, blank_of_words blank g member],
    by simp [Token.isSpacing, Token.isNewline, ends]⟩

namespace Cursor

/-- Passing over white space and line ends stops at the first word of a line. -/
theorem skipSpacing_word {gap ts : List Token} (gaps : ∀ g ∈ gap, g.isSpacing = true)
    {x : TokenKind × String} {xs : List (TokenKind × String)} (read : words ts = x :: xs)
    (code : x.1 ≠ .newline ∧ x.1 ≠ .comment) (passed tail : List Token) :
    ∃ passed' t rest, skipSpacing ⟨passed, gap ++ (ts ++ tail)⟩ = ⟨passed', t :: (rest ++ tail)⟩ ∧
      t.segment = x ∧ words rest = xs := by
  obtain ⟨more, t, rest, rfl, white, solid, first, further⟩ := words_cons_inv read
  have kinds : t.kind ≠ .newline ∧ t.kind ≠ .comment := by rwa [← first] at code
  refine ⟨(gap ++ more).reverse ++ passed, t, rest, ?_, first, further⟩
  rw [show gap ++ (more ++ t :: rest ++ tail) = (gap ++ more) ++ t :: (rest ++ tail) by simp]
  apply skip_over
  · rw [List.forall_mem_append]
    exact ⟨gaps, fun g member => by simp [Token.isSpacing, white g member]⟩
  · simp [Token.isSpacing, solid, Token.isNewline, kinds.1]
  · simp [Token.isContinuation, kinds.2]

theorem dottedFrom_stop {ts : List Token} (stop : ts.head?.any (·.isPunct ".") = false) (name : String)
    (passed : List Token) : dottedFrom name passed ts = (name, ⟨passed, ts⟩) := by
  fun_cases dottedFrom name passed ts
  case case1 t u r part =>
    rw [Bool.and_eq_true] at part
    simp [part.1] at stop
  all_goals simp_all

end Cursor

namespace Reader

/-- A block with nothing but a comment behind its keyword has no attributes. -/
theorem blockHeader_bare {rest : List Token} (blank : words rest = []) {remark : Option Token}
    (own : ∀ t ∈ remark, t.isRemark = true) {e : Token} (ends : e.kind = .newline) (v : Vocabulary) (t : Token)
    (passed tail : List Token) (notes : List Note) :
    ∃ passed', blockHeader v ⟨⟨passed, t :: (rest ++ (remark.toList ++ e :: tail))⟩, notes⟩ =
      .ok ({}, ⟨⟨passed', tail⟩, notes⟩) := by
  obtain ⟨u, us, cut, solid, code, other⟩ := Cursor.exists_ending own ends tail
  have moved := Cursor.skip_over (blank_of_words blank) solid code (t :: passed) us
  have finished := Cursor.finishLine_remark words_nil own ends (rest.reverse ++ t :: passed) tail
  rw [List.nil_append, cut] at finished
  refine ⟨e :: (([] ++ remark.toList).reverse ++ (rest.reverse ++ t :: passed)), ?_⟩
  simp only [blockHeader, move, Cursor.advance, cut, Cursor.skipWhitespace, moved, attributes, Cursor.take?, other,
    Bool.false_eq_true, if_false, finished, withCursor]

/-- A block whose keyword is alone on its line has no attributes. -/
theorem blockHeader_blank {rest : List Token} (blank : words rest = []) {e : Token}
    (ends : e.kind = .newline) (v : Vocabulary) (t : Token) (passed tail : List Token) (notes : List Note) :
    ∃ passed', blockHeader v ⟨⟨passed, t :: (rest ++ e :: tail)⟩, notes⟩ =
      .ok ({}, ⟨⟨passed', tail⟩, notes⟩) :=
  @blockHeader_bare rest blank none (by simp) e ends v t passed tail notes

section Here

variable {r : Reader} {passed rest : List Token} {t : Token} {notes : List Note}
  (here : r.move Cursor.skipSpacing = ⟨⟨passed, t :: rest⟩, notes⟩)
include here

theorem methodsFrom_end (close : t.isKeyword "end" = true) (attrs : Table AttrValue) (c : ClassDoc) :
    r.methodsFrom attrs c = .ok (c, ⟨⟨t :: passed, rest⟩, notes⟩) := by
  rw [methodsFrom.eq_def]
  simp only
  split
  · next empty => simp [here, Cursor.peek] at empty
  · next u found =>
    obtain rfl : t = u := by simpa [here, Cursor.peek] using found
    rw [if_pos close, here]
    rfl

theorem methodsFrom_function (keyword : t.isKeyword "function" = true) (attrs : Table AttrValue)
    {c : ClassDoc} {f : FunctionDoc} {r' : Reader}
    (read : function c.scope none ⟨⟨passed, t :: rest⟩, notes⟩ = .ok (f, r')) :
    r.methodsFrom attrs c = r'.methodsFrom attrs (addMethod c attrs f) := by
  have other : t.isKeyword "end" = false := by
    simp only [Token.isKeyword, Token.is, Bool.and_eq_true, beq_iff_eq] at keyword
    simp [Token.isKeyword, Token.is, keyword.2]
  rw [methodsFrom.eq_def]
  simp only
  split
  · next empty => simp [here, Cursor.peek] at empty
  · next u found =>
    obtain rfl : t = u := by simpa [here, Cursor.peek] using found
    rw [if_neg (by simp [other]), if_pos keyword]
    split
    · next failed => simp [here, read] at failed
    · next f' r'' done =>
      rw [here, read] at done
      obtain ⟨rfl, rfl⟩ := Prod.mk.inj (Except.ok.inj done)
      rfl

theorem classBody_end (close : t.isKeyword "end" = true) (c : ClassDoc) :
    r.classBody c = .ok (c, ⟨⟨t :: passed, rest⟩, notes⟩) := by
  rw [classBody.eq_def]
  simp only
  split
  · next empty => simp [here, Cursor.peek] at empty
  · next u found =>
    obtain rfl : t = u := by simpa [here, Cursor.peek] using found
    rw [if_pos close, here]
    rfl

theorem classBody_block (keyword : t.kind = .keyword) (open_ : t.text ≠ "end") {c c' : ClassDoc}
    {r' : Reader} (read : memberBlock t.text c ⟨⟨passed, t :: rest⟩, notes⟩ = some (.ok (c', r'))) :
    r.classBody c = r'.classBody c' := by
  rw [classBody.eq_def]
  simp only
  split
  · next empty => simp [here, Cursor.peek] at empty
  · next u found =>
    obtain rfl : t = u := by simpa [here, Cursor.peek] using found
    rw [if_neg (by simp [Token.isKeyword, Token.is, open_]), if_neg (by simp [keyword])]
    split
    · next failed => simp [here, keyword, read] at failed
    · next c'' r'' done =>
      rw [here, keyword, if_pos (by rfl), read] at done
      obtain ⟨rfl, rfl⟩ := Prod.mk.inj (Except.ok.inj (Option.some.inj done))
      rfl
    · next missing => simp [here, keyword, read] at missing

end Here

/-- A name that is alone on its line is an entry of which nothing is said. -/
theorem entry_bare {t : Token} (name : t.kind = .name) {rest : List Token} (blank : words rest = [])
    {e : Token} (ends : e.kind = .newline) (passed tail : List Token) (notes : List Note) :
    ∃ passed' last, entry false ⟨⟨passed, t :: (rest ++ e :: tail)⟩, notes⟩ =
      ({ name := t.text, firstLine := t.line, lastLine := last, spec := {}, trailing := none },
        ⟨⟨passed', e :: tail⟩, notes⟩) := by
  have named : Cursor.entryName false ⟨passed, t :: (rest ++ e :: tail)⟩ =
      (t.text, ⟨t :: passed, rest ++ e :: tail⟩) := by
    simp [Cursor.entryName, Cursor.take?, Cursor.isName, name]
  have gap := Cursor.skipWhitespace_blank blank ends (t :: passed) tail
  have typed (passed : List Token) : Cursor.entryType ⟨passed, e :: tail⟩ = (none, ⟨passed, e :: tail⟩) := by
    simp [Cursor.entryType, Cursor.dottedName?, Cursor.take?, Cursor.isName, ends]
  have checked (passed : List Token) :
      Cursor.entryValidators ⟨passed, e :: tail⟩ = (none, ⟨passed, e :: tail⟩) := by
    simp [Cursor.entryValidators, Cursor.take?, Token.isPunct, Token.is, ends]
  have valued (passed : List Token) :
      Cursor.entryDefault ⟨passed, e :: tail⟩ = (none, ⟨passed, e :: tail⟩) := by
    simp [Cursor.entryDefault, Cursor.take?, Token.isOperator, Token.is, ends]
  have behind (passed : List Token) :
      Cursor.skipSeparators ⟨passed, e :: tail⟩ = ⟨passed, e :: tail⟩ := by
    simp [Cursor.skipSeparators, Cursor.skip, Cursor.skipFrom, Token.isWhitespace, Token.isPunct, Token.is,
      Token.isContinuation, ends]
  refine ⟨rest.reverse ++ t :: passed, ?_⟩
  simp [entry, named, gap, entrySize, withCursor, Cursor.take?, Token.isPunct, Token.is, ends, typed, checked,
    valued, behind, Token.isRemark, Cursor.line]

section Entries

variable {r : Reader} {passed rest : List Token} {t : Token} {notes : List Note}
  (here : r.move Cursor.skipWhitespace = ⟨⟨passed, t :: rest⟩, notes⟩) (block : BlockKind) (dotted : Bool)
  (items : List ListItem) (entries : List Entry)
include here

theorem entriesFrom_end (close : t.isKeyword "end" = true) :
    r.entriesFrom block dotted items entries = ((items, entries), ⟨⟨t :: passed, rest⟩, notes⟩) := by
  rw [entriesFrom.eq_def]
  simp only
  split
  · next empty => simp [here, Cursor.peek] at empty
  · next u found =>
    obtain rfl : t = u := by simpa [here, Cursor.peek] using found
    rw [if_pos close, here]
    rfl

theorem entriesFrom_feed (newline : t.kind = .newline) :
    r.entriesFrom block dotted items entries =
      entriesFrom block dotted items entries ⟨⟨t :: passed, rest⟩, notes⟩ := by
  rw [entriesFrom.eq_def]
  simp only
  split
  · next empty => simp [here, Cursor.peek] at empty
  · next u found =>
    obtain rfl : t = u := by simpa [here, Cursor.peek] using found
    rw [if_neg (by simp [Token.isKeyword, Token.is, newline]), if_neg (by simp [Cursor.isName, newline]),
      if_neg (by simp [newline]), if_pos (by simp [separatesEntries, Token.isNewline, newline]), here]
    rfl

theorem entriesFrom_name (name : t.kind = .name) {e : Entry} (plain : e.trailing = none) {r' : Reader}
    (read : entry dotted ⟨⟨passed, t :: rest⟩, notes⟩ = (e, r')) :
    r.entriesFrom block dotted items entries =
      r'.entriesFrom block dotted (ListItem.pushEntry items e.firstLine e.lastLine none) (entries ++ [e]) := by
  rw [entriesFrom.eq_def]
  simp only
  split
  · next empty => simp [here, Cursor.peek] at empty
  · next u found =>
    obtain rfl : t = u := by simpa [here, Cursor.peek] using found
    rw [if_neg (by simp [Token.isKeyword, Token.is, name]), if_pos (by simp [Cursor.isName, name]), here, read]
    simp [plain]

end Entries

/-- The entries of a block that holds one bare name. -/
theorem entries_bare {name : String} {line close : List Token} (one : IsLine [(.name, name)] line)
    (ending : IsLine [(.keyword, "end")] close) (passed tail : List Token) (notes : List Note) :
    ∃ e passed' gap, entries .properties false ⟨⟨passed, line ++ (close ++ tail)⟩, notes⟩ =
        ([e], ⟨⟨passed', gap ++ tail⟩, notes⟩) ∧
      e.name = name ∧ e.spec = {} ∧ ∀ g ∈ gap, g.isSpacing = true := by
  obtain ⟨front, e, rfl, read, ends⟩ := one
  obtain ⟨front', e', rfl, read', ends'⟩ := ending
  simp only [List.append_assoc, List.singleton_append]
  obtain ⟨passed₁, t, rest, here, first, blank⟩ :=
    Cursor.skipWhitespace_word read (by simp) passed (e :: (front' ++ e' :: tail))
  obtain ⟨kind, text⟩ := Prod.mk.inj first
  obtain ⟨passed₂, last, bare⟩ := entry_bare kind blank ends passed₁ (front' ++ e' :: tail) notes
  obtain ⟨passed₃, k, rest', there, close, blank'⟩ :=
    Cursor.skipWhitespace_word read' (by simp) (e :: passed₂) (e' :: tail)
  have walk := entriesFrom_name (r := ⟨⟨passed, front ++ e :: (front' ++ e' :: tail)⟩, notes⟩)
    (by rw [move, here]) .properties false [] [] kind rfl bare
  have stay : Cursor.skipWhitespace ⟨passed₂, e :: (front' ++ e' :: tail)⟩ =
      ⟨passed₂, e :: (front' ++ e' :: tail)⟩ := Cursor.skipWhitespace_blank words_nil ends passed₂ _
  have feed (items : List ListItem) (read : List Entry) :=
    entriesFrom_feed (r := ⟨⟨passed₂, e :: (front' ++ e' :: tail)⟩, notes⟩)
      (by rw [move, stay]) .properties false items read ends
  have final (items : List ListItem) (read : List Entry) :=
    entriesFrom_end (r := ⟨⟨e :: passed₂, front' ++ e' :: tail⟩, notes⟩)
      (by rw [move, there]) .properties false items read (Token.isKeyword_of_segment close)
  refine ⟨{ name := t.text, firstLine := t.line, lastLine := last, spec := {}, trailing := none },
    k :: passed₃, rest' ++ [e'], ?_, text, rfl, ?_⟩
  · rw [entries, walk, feed, final]
    simp [ListItem.docstrings, ListItem.pushEntry, ListItem.docstringsAfter, ListItem.docAbove,
      ListItem.block?, ListItem.docBehind, ListItem.docBelow]
  · exact spacing_of_blank blank' ends'

end Reader

/-- Without `arguments` the two notions of an opening keyword agree. -/
theorem IsBody.nested_isOpener {ts : List Token} (body : IsBody ts) : Nested Cursor.isOpener ts := by
  apply body.nested.congr
  intro t member
  have own := body.own t member
  simp only [Token.isForeign, Token.isKeyword, Token.is, Bool.or_eq_false_iff] at own
  by_cases keyword : t.kind = .keyword
  · have other : (t.text == "arguments") = false := by simpa [keyword] using own.1
    simp [Cursor.isOpener, Token.opensBlock, other]
  · simp [Cursor.isOpener, Token.opensBlock, beq_false_of_ne keyword]

/-- What the signature line says of the function. -/
def MethodText.functionDoc (m : MethodText) (scope : String) : FunctionDoc where
  name := m.signature.name
  scope := scope
  args := .ofNames m.signature.params
  returns := .ofNames m.signature.outputs

namespace Reader

/-- One method is read from its signature line, and its body is passed over. -/
theorem methodsFrom_method {m : MethodText} {ts : List Token} (tokens : m.Tokens ts) {gap : List Token}
    (gaps : ∀ g ∈ gap, g.isSpacing = true) (attrs : Table AttrValue) (c : ClassDoc)
    (passed tail : List Token) (notes : List Note) :
    ∃ passed' gap', methodsFrom attrs c ⟨⟨passed, gap ++ (ts ++ tail)⟩, notes⟩ =
        methodsFrom attrs (addMethod c attrs (m.functionDoc c.scope)) ⟨⟨passed', gap' ++ tail⟩, notes⟩ ∧
      ∀ g ∈ gap', g.isSpacing = true := by
  obtain ⟨ws, line, blank, body, close, rfl, ⟨outputWords, parameterWords⟩, isLine, isBlank, isBody, isEnd⟩ :=
    tokens
  obtain ⟨front, e, rfl, read, ends⟩ := isLine
  obtain ⟨space, feed, rfl, readBlank, feeds⟩ := isBlank
  obtain ⟨frontEnd, e', rfl, readEnd, ends'⟩ := isEnd
  obtain ⟨margin, k, rest', rfl, white, _, closes, further⟩ := words_cons_inv readEnd
  have shape : front ++ [e] ++ (space ++ [feed] ++ (body ++ (margin ++ k :: rest' ++ [e']))) ++ tail =
      front ++ e :: (space ++ feed :: (body ++ margin ++ k :: (rest' ++ [e'] ++ tail))) := by simp
  obtain ⟨passed₁, f, rest, here, first, readRest⟩ := Cursor.skipSpacing_word gaps read (by simp) passed
    (e :: (space ++ feed :: (body ++ margin ++ k :: (rest' ++ [e'] ++ tail))))
  have keyword : f.isKeyword "function" = true := Token.isKeyword_of_segment first
  have quiet : ∀ g ∈ margin, g.isHeader = true := fun g member =>
    Token.isHeader_of_isWhitespace (white g member)
  have nested : Nested Cursor.isOpener (body ++ margin) := isBody.nested_isOpener.append (.header quiet)
  have own : ∀ t ∈ body ++ margin, t.isKeyword "arguments" = false := by
    rw [List.forall_mem_append]
    refine ⟨fun t member => ?_, fun t member => ?_⟩
    · have foreign := isBody.own t member
      rw [Token.isForeign, Bool.or_eq_false_iff] at foreign
      exact foreign.1
    · exact Token.not_isKeyword_of_kind (Token.kind_of_isHeader (quiet t member)).1 _
  have bare : ∀ t ∈ (none : Option Token), t.isRemark = true := by simp
  have free : ∀ other ∈ (none : Option String), m.signature.name = other := by simp
  obtain ⟨passed', known⟩ := function_of_signature outputWords parameterWords keyword readRest bare ends .nil
    readBlank feeds nested own (Token.isKeyword_of_segment closes) free c.scope notes passed₁ (rest' ++ [e'] ++ tail)
  rw [Option.toList_none, List.nil_append, List.nil_append] at known
  refine ⟨passed', rest' ++ [e'], ?_, ?_⟩
  · rw [shape]
    exact methodsFrom_function (by rw [move, here]) keyword attrs known
  · exact spacing_of_blank further ends'

/-- A `methods` block ends at its `end`. -/
theorem methodsFrom_close {close : List Token} (ending : IsLine [(.keyword, "end")] close) {gap : List Token}
    (gaps : ∀ g ∈ gap, g.isSpacing = true) (attrs : Table AttrValue) (c : ClassDoc) (passed tail : List Token)
    (notes : List Note) :
    ∃ passed' gap', methodsFrom attrs c ⟨⟨passed, gap ++ (close ++ tail)⟩, notes⟩ =
        .ok (c, ⟨⟨passed', gap' ++ tail⟩, notes⟩) ∧ ∀ g ∈ gap', g.isSpacing = true := by
  obtain ⟨front, e, rfl, read, ends⟩ := ending
  obtain ⟨passed₁, k, rest, here, first, blank⟩ := Cursor.skipSpacing_word gaps read (by simp) passed (e :: tail)
  refine ⟨k :: passed₁, rest ++ [e], ?_, spacing_of_blank blank ends⟩
  have start : Reader.move ⟨⟨passed, gap ++ (front ++ [e] ++ tail)⟩, notes⟩ Cursor.skipSpacing =
      ⟨⟨passed₁, k :: (rest ++ e :: tail)⟩, notes⟩ := by
    rw [List.append_assoc, List.singleton_append, move, here]
  rw [methodsFrom_end start (Token.isKeyword_of_segment first)]
  simp

/-- A `methods` block gives one method for each signature. -/
theorem methodsFrom_all {ms : List MethodText} {ts : List Token} (tokens : MethodText.AllTokens ms ts)
    {close : List Token} (ending : IsLine [(.keyword, "end")] close) {gap : List Token}
    (gaps : ∀ g ∈ gap, g.isSpacing = true) (attrs : Table AttrValue) (c : ClassDoc)
    (passed tail : List Token) (notes : List Note) :
    ∃ passed' gap', methodsFrom attrs c ⟨⟨passed, gap ++ (ts ++ (close ++ tail))⟩, notes⟩ =
        .ok ((ms.map fun m => m.functionDoc c.scope).foldl (fun c f => addMethod c attrs f) c,
          ⟨⟨passed', gap' ++ tail⟩, notes⟩) ∧
      ∀ g ∈ gap', g.isSpacing = true := by
  induction tokens generalizing c gap passed with
  | nil => exact methodsFrom_close ending gaps attrs c passed tail notes
  | @cons m ms ts us first _ ih =>
    obtain ⟨passed₁, gap₁, one, gaps₁⟩ := methodsFrom_method first gaps attrs c passed
      (us ++ (close ++ tail)) notes
    obtain ⟨passed', gap', rest, gaps'⟩ := ih gaps₁ (addMethod c attrs (m.functionDoc c.scope)) passed₁
    refine ⟨passed', gap', ?_, gaps'⟩
    rw [List.append_assoc, one, rest]
    rfl

end Reader

end MatlabOutline
