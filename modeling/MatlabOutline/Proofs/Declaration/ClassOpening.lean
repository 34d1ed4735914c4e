import MatlabOutline.Proofs.Declaration.OpaqueMethods
import MatlabOutline.Proofs.Declaration.UnitOpening
import MatlabOutline.Proofs.Normalize.FixedPoints

/-!
Texts that begin with the line of a class. Main statements: such a text has no header and is a class
(`removeHeader_of_classdef`, `classify_of_classdef`), and reading it goes on with the members below its
first line (`Reader.classDeclaration_opening`).
-/

namespace MatlabOutline

theorem Table.put_absent {α : Type} {key : String} {l : List (String × α)} (absent : key ∉ l.map Prod.fst)
    (value : α) : put key value l = l ++ [(key, value)] := by
  fun_induction put key value l with
  | case1 => rfl
  | case2 v r => simp at absent
  | case3 k v r away ih =>
    simp only [List.map_cons, List.mem_cons, not_or] at absent
    rw [ih absent.2, List.cons_append]

/-- Names of their own are put at the end in order. -/
theorem Table.foldl_insert {α β : Type} {key : β → String} {value : β → α} (bs : List β) (t : Table α)
    (distinct : (t.keys ++ bs.map key).Nodup) :
    bs.foldl (fun t b => t.insert (key b) (value b)) t = ⟨t.entries ++ bs.map fun b => (key b, value b)⟩ := by
  induction bs generalizing t with
  | nil => simp
  | cons b bs ih =>
    have absent : key b ∉ t.keys := by
      rw [List.nodup_append] at distinct
      exact fun member => distinct.2.2 _ member _ (by simp) rfl
    have inserted : t.insert (key b) (value b) = ⟨t.entries ++ [(key b, value b)]⟩ := by
      rw [insert, put_absent absent]
    rw [List.foldl_cons, inserted, ih]
    · simp
    · simpa [keys] using distinct

theorem IsLine.endsLine {ws : List (TokenKind × String)} {text : String} (line : IsLine ws (tokenize text)) :
    endsLine text = true := by
  obtain ⟨front, e, cut, _, ends⟩ := line
  simp [MatlabOutline.endsLine, cut, Token.isNewline, ends]

/-- What holds of white space, line ends and the words of a line holds of all its tokens. -/
theorem IsLine.forall_kind {ws : List (TokenKind × String)} {ts : List Token} (line : IsLine ws ts)
    {p : TokenKind → Prop} (white : p .whitespace) (newline : p .newline) (all : ∀ x ∈ ws, p x.1) :
    ∀ t ∈ ts, p t.kind := by
  obtain ⟨front, e, rfl, read, ends⟩ := line
  rw [List.forall_mem_append, List.forall_mem_singleton, ends]
  refine ⟨forall_mem_of_words (fun t _ blank => ?_) fun t word => all _ (read ▸ word), newline⟩
  have kind : t.kind = .whitespace := by simpa [Token.isWhitespace] using blank
  rwa [kind]

theorem IsLine.unbroken {ws : List (TokenKind × String)} {ts : List Token} (line : IsLine ws ts)
    (code : ∀ x ∈ ws, x.1 ≠ .comment) : ∀ t ∈ ts, t.isContinuation = false := by
  intro t member
  have kind := line.forall_kind (p := (· ≠ .comment)) (by simp) (by simp) code t member
  simp [Token.isContinuation, kind]

/-- The first word of a line has only white space before it. -/
theorem IsLine.exists_keyword {word : String} {ws : List (TokenKind × String)} {line : List Token}
    (isLine : IsLine ((.keyword, word) :: ws) line) {ts below : List Token} (cut : ts = line ++ below) :
    ∃ gap k rest, ts = gap ++ k :: rest ∧ (∀ g ∈ gap, g.isWhitespace = true) ∧ k.isKeyword word = true := by
  obtain ⟨front, e, rfl, read, _⟩ := isLine
  obtain ⟨gap, k, rest, rfl, white, _, keyword, _⟩ := words_cons_inv read
  exact ⟨gap, k, _, cut.trans (by simp only [List.append_assoc, List.cons_append]; rfl), white,
    Token.isKeyword_of_segment keyword⟩

theorem Relisted.of_segments {ts us : List Token} (same : us.map Token.segment = ts.map Token.segment) :
    Relisted ts us := by
  induction ts generalizing us with
  | nil =>
    rw [List.map_nil, List.map_eq_nil_iff] at same
    rw [same]
    exact .nil
  | cons t ts ih =>
    obtain ⟨u, us, rfl, first, rest⟩ := List.map_eq_cons_iff.mp same
    exact .same first (ih rest)

theorem Token.concat_of_segments {ts us : List Token} (same : us.map segment = ts.map segment) :
    concat us = concat ts := by
  induction ts generalizing us with
  | nil => rw [List.map_eq_nil_iff.mp same]
  | cons t ts ih =>
    obtain ⟨u, us, rfl, first, rest⟩ := List.map_eq_cons_iff.mp same
    rw [concat_cons, concat_cons, text_of_segment first, ih rest]

/-- A line only depends on the kinds and texts of its tokens. -/
theorem IsLine.of_segments {ws : List (TokenKind × String)} {ts us : List Token} (line : IsLine ws ts)
    (plain : ∀ x ∈ ws, x.1 ≠ .nameFunction) (same : us.map Token.segment = ts.map Token.segment) :
    IsLine ws us :=
  line.relisted plain (.of_segments same)

theorem IsLine.of_words {ws : List (TokenKind × String)} {ts : List Token}
    (ends : ts.getLast?.map Token.kind = some .newline) (read : words ts.dropLast = ws) : IsLine ws ts := by
  obtain ⟨e, last, kind⟩ := Option.map_eq_some_iff.mp ends
  refine ⟨ts.dropLast, e, ?_, read, kind⟩
  obtain ⟨front, rfl⟩ := List.getLast?_eq_some_iff.mp last
  simp

/-- Whole lines are read one by one. -/
theorem map_segment_tokenize_join {pieces : List String} (ended : ∀ p ∈ pieces, endsLine p = true) :
    (tokenize (String.join pieces)).map Token.segment =
      ((pieces.map tokenize).flatten).map Token.segment := by
  rw [map_segment_tokenize, segments_join ended]
  simp [List.map_flatten, Function.comp_def, map_segment_tokenize]

section Opening

variable {source : String} {gap rest : List Token} {k : Token} (cut : tokenize source = gap ++ k :: rest)
  (white : ∀ g ∈ gap, g.isWhitespace = true) (keyword : k.isKeyword "classdef" = true)
include cut white keyword

theorem removeHeader_of_classdef : removeHeader source = source :=
  removeHeader_of_keyword cut white (Token.kind_of_isKeyword keyword)

theorem classify_of_classdef : classify (tokenize source) = .cls := by
  have quiet : ∀ g ∈ gap, g.isHeader = true := fun g member => Token.isHeader_of_isWhitespace (white g member)
  have other : k.isKeyword "function" = false := by
    simp only [Token.isKeyword, Token.is, Bool.and_eq_true, beq_iff_eq] at keyword
    simp [Token.isKeyword, Token.is, keyword.2]
  rw [cut, classify_of_keyword quiet (Token.kind_of_isKeyword keyword), if_neg (by simp [other]), if_pos keyword]

end Opening

/-- A class keyword and white space stay within a line. -/
theorem feeds_of_classdef {source : String} {front : List Token} (inside : ∀ t ∈ front, t ∈ tokenize source)
    (read : words front = [(.keyword, "classdef")]) : Text.feeds (Token.concat front).toList = 0 := by
  apply Token.feeds_concat_eq_zero
  refine forall_mem_of_words (fun t member => feeds_of_whitespace (inside t member)) fun t word => ?_
  rw [read, List.mem_singleton] at word
  rw [(Prod.mk.inj word).2]
  decide

namespace Reader

/-- The line of a class without attributes and superclasses gives its name. -/
theorem classDeclaration_line {name : String} {k t e : Token} {gap rest : List Token}
    (keyword : k.isKeyword "classdef" = true) (white : words gap = []) (named : t.segment = (.name, name))
    (blank : words rest = []) (ends : e.kind = .newline) {tail : List Token}
    (code : ∀ passed, (Cursor.skipWhitespace ⟨passed, tail⟩).take? Token.isRemark = none)
    (place : Nat → Location) (scope : String) (passed : List Token) :
    ∃ passed', classDeclaration place scope name
        ⟨⟨passed, k :: (gap ++ t :: (rest ++ e :: tail))⟩, []⟩ =
      classBody { name := name, scope := scope, location := place t.line } ⟨⟨passed', tail⟩, []⟩ := by
  obtain ⟨kind, text⟩ := Prod.mk.inj named
  have start : (Cursor.skipIf ⟨passed, k :: (gap ++ t :: (rest ++ e :: tail))⟩
      (·.isKeyword "classdef")).skipWhitespace =
      ⟨gap.reverse ++ k :: passed, t :: (rest ++ e :: tail)⟩ := by
    simp only [Cursor.skipIf, Cursor.take?, keyword, if_true]
    exact Cursor.skip_over (blank_of_words white) (by simp [Token.isWhitespace, kind])
      (by simp [Token.isContinuation, kind]) _ _
  generalize gap.reverse ++ k :: passed = passed₁ at start
  have still : Cursor.skipWhitespace ⟨passed₁, t :: (rest ++ e :: tail)⟩ =
      ⟨passed₁, t :: (rest ++ e :: tail)⟩ := by
    simp [Cursor.skipWhitespace, Cursor.skip, Cursor.skipFrom, Token.isWhitespace, Token.isContinuation, kind]
  have plain : attributes .ofClass ⟨⟨passed₁, t :: (rest ++ e :: tail)⟩, []⟩ =
      .ok ({}, ⟨⟨passed₁, t :: (rest ++ e :: tail)⟩, []⟩) := by
    simp [attributes, Cursor.take?, Token.isPunct, Token.is, kind]
  have dotted : Cursor.dottedName? ⟨passed₁, t :: (rest ++ e :: tail)⟩ =
      some (name, ⟨t :: passed₁, rest ++ e :: tail⟩) := by
    have stop : (rest ++ e :: tail).head?.any (·.isPunct ".") = false := by
      rcases rest with _ | ⟨u, rest⟩
      · simp [Token.isPunct, Token.is, ends]
      · have space := blank_of_words blank u (by simp)
        simp only [Token.isWhitespace, beq_iff_eq] at space
        simp [Token.isPunct, Token.is, space]
    simp [Cursor.dottedName?, Cursor.take?, Cursor.isName, kind, text, Cursor.dottedFrom_stop stop]
  have gap := Cursor.skipWhitespace_blank blank ends (t :: passed₁) tail
  have alone : superclasses ⟨⟨t :: passed₁, rest ++ e :: tail⟩, []⟩ =
      ([], ⟨⟨rest.reverse ++ t :: passed₁, e :: tail⟩, []⟩) := by
    simp [superclasses, gap, Cursor.take?, Token.isOperator, Token.is, ends, move]
  have finished : Cursor.finishLine ⟨rest.reverse ++ t :: passed₁, e :: tail⟩ =
      (none, ⟨e :: (rest.reverse ++ t :: passed₁), tail⟩) := Cursor.finishLine_blank words_nil ends _ _
  refine ⟨e :: (rest.reverse ++ t :: passed₁), ?_⟩
  simp only [classDeclaration, move, start, plain, still, dotted, withCursor, checkName, if_true, alone,
    finished, Cursor.commentRun_none (code _)]
  rfl

/-- A class is read from its first line, and then from its members. -/
theorem classDeclaration_opening {name : String} {opening : List Token}
    (first : IsLine [(.keyword, "classdef"), (.name, name)] opening) {body : List Token}
    (code : ∀ passed, (Cursor.skipWhitespace ⟨passed, body⟩).take? Token.isRemark = none)
    (place : Nat → Location) (scope : String) :
    ∃ front t rest passed, opening ++ body = front ++ t :: rest ∧ words front = [(.keyword, "classdef")] ∧
      classDeclaration place scope name { cursor := (Cursor.ofTokens (opening ++ body)).skipSpacing } =
        classBody { name := name, scope := scope, location := place t.line } ⟨⟨passed, body⟩, []⟩ := by
  obtain ⟨front, e, rfl, read, ends⟩ := first
  obtain ⟨margin, k, more, rfl, white, solid, keyword, readMore⟩ := words_cons_inv read
  obtain ⟨gap, t, rest, rfl, white', solid', named, blank⟩ := words_cons_inv readMore
  have nothing : words margin = [] := by simpa [words] using white
  have nothing' : words gap = [] := by simpa [words] using white'
  obtain ⟨passed, declared⟩ := classDeclaration_line (Token.isKeyword_of_segment keyword) nothing' named
    blank ends code place scope margin.reverse
  refine ⟨margin ++ k :: gap, t, rest ++ e :: body, passed, by simp, ?_, ?_⟩
  · rw [words_append, nothing, words_cons solid, keyword, nothing', List.nil_append]
  have start : (Cursor.ofTokens (margin ++ k :: (gap ++ t :: rest) ++ [e] ++ body)).skipSpacing =
      ⟨margin.reverse, k :: (gap ++ t :: (rest ++ e :: body))⟩ := by
    have spacing : ∀ g ∈ margin, g.isSpacing = true :=
      fun g member => by simp [Token.isSpacing, white g member]
    have moved := Cursor.skipSpacing_of_keyword spacing (Prod.mk.inj keyword).1 (gap ++ t :: (rest ++ e :: body))
    simpa using moved
  rw [start, declared]

theorem take?_remark_of_words {ts : List Token} {x : TokenKind × String} {xs : List (TokenKind × String)}
    (read : words ts = x :: xs) (code : x.1 ≠ .comment) (passed rest : List Token) :
    (Cursor.skipWhitespace ⟨passed, ts ++ rest⟩).take? Token.isRemark = none := by
  obtain ⟨passed', u, rest', here, word, _⟩ := Cursor.skipWhitespace_word read code passed rest
  rw [here]
  have kind : u.kind ≠ .comment := by
    rwa [show u.kind = x.1 from congrArg Prod.fst word]
  simp [Cursor.take?, Token.isRemark, kind]

/-- The first line below the line of a class is not a comment if it begins with a word. -/
theorem take?_remark_of_line {x : TokenKind × String} {xs : List (TokenKind × String)} {line : List Token}
    (first : IsLine (x :: xs) line) (code : x.1 ≠ .comment) (passed rest : List Token) :
    (Cursor.skipWhitespace ⟨passed, line ++ rest⟩).take? Token.isRemark = none := by
  obtain ⟨front, e, rfl, read, _⟩ := first
  rw [List.append_assoc]
  exact take?_remark_of_words read code passed _

/-- Methods with names of their own are added in order. -/
theorem foldl_addMethod (attrs : Table AttrValue) (fs : List FunctionDoc) (c : ClassDoc)
    (distinct : (c.methods.keys ++ fs.map fun f => MethodDoc.normalName f.name).Nodup) :
    fs.foldl (fun c f => addMethod c attrs f) c =
      { c with methods := ⟨c.methods.entries ++
        fs.map fun f => (MethodDoc.normalName f.name, MethodDoc.ofFunction f attrs c.name)⟩ } := by
  have added (fs : List FunctionDoc) (c : ClassDoc) : fs.foldl (fun c f => addMethod c attrs f) c =
      { c with methods := fs.foldl (fun t f =>
        t.insert (MethodDoc.normalName f.name) (MethodDoc.ofFunction f attrs c.name)) c.methods } := by
    induction fs generalizing c with
    | nil => rfl
    | cons f fs ih =>
      rw [List.foldl_cons, ih]
      rfl
  rw [added, Table.foldl_insert _ _ distinct]

section Members

variable {gap opening : List Token} (gaps : ∀ g ∈ gap, g.isSpacing = true) (passed : List Token)
  (notes : List Note)
include gaps

/-- The entries of a `properties` block are added to the class. -/
theorem classBody_entries (header : IsLine [(.keyword, "properties")] opening) (body : List Token) :
    ∃ passed', ∀ {read : List Entry} {r : Reader} (c : ClassDoc),
      entries .properties false ⟨⟨passed', body⟩, notes⟩ = (read, r) →
      classBody c ⟨⟨passed, gap ++ (opening ++ body)⟩, notes⟩ = r.classBody (addProperties c {} read) := by
  obtain ⟨front, e, rfl, read, ends⟩ := header
  obtain ⟨passed₁, t, rest, here, first, blank⟩ := Cursor.skipSpacing_word gaps read (by simp) passed (e :: body)
  obtain ⟨kind, text⟩ := Prod.mk.inj first
  obtain ⟨passed₂, headed⟩ := blockHeader_blank blank ends .ofProperty t passed₁ body notes
  refine ⟨passed₂, fun c known => ?_⟩
  rw [List.append_assoc, List.singleton_append]
  apply classBody_block (by rw [move, here]) kind (by simp [text])
  simp [memberBlock, text, propertiesBlock, headed, known]

theorem classBody_close {close : List Token} (ending : IsLine [(.keyword, "end")] close) (c : ClassDoc) :
    ∃ cursor, classBody c ⟨⟨passed, gap ++ close⟩, notes⟩ = .ok (c, ⟨cursor, notes⟩) := by
  obtain ⟨front, e, rfl, read, ends⟩ := ending
  obtain ⟨passed₁, t, rest, here, first, blank⟩ := Cursor.skipSpacing_word gaps read (by simp) passed [e]
  exact ⟨_, classBody_end (by rw [move, here]) (Token.isKeyword_of_segment first) c⟩

end Members

end Reader

end MatlabOutline
