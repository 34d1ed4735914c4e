import MatlabOutline.Proofs.Declaration.UnitOpening
import MatlabOutline.Proofs.Lexing.Signatures
import MatlabOutline.Proofs.Normalize.JoinedTokens
import MatlabOutline.Proofs.Normalize.StubLines
import MatlabOutline.Proofs.Reports.Run

/-!
Functions whose signature shares its line with statements. Main statement: a function without outputs that
a comma follows is read under its name just if the search for outputs comes to no `=` among the statements
(`parseUnit_shared`).
-/

namespace MatlabOutline

namespace Lexer

open Scan

/-- Within a line joining takes away the continuation marker at its end, and nothing else. -/
theorem exists_marker_of_line (st : LexState) {cs : List Char} (line : '\n' ∉ cs) :
    ∃ tail, cs = spelled (dropMarkers false (lexemes st cs)) ++ tail ∧ (tail = [] ∨ ∃ z, tail = '.' :: '.' :: z) := by
  fun_induction lexemes st cs with
  | case1 => exact ⟨[], rfl, .inl rfl⟩
  | case2 st c r s ih =>
    have whole : s.split.taken ++ s.split.rest = r := step_whole st c r
    rw [← whole, List.mem_cons, List.mem_append, not_or, not_or] at line
    cases marker : isMarker (s.kind, c :: s.split.taken) with
    | true =>
      have last : s.split.rest = [] := by
        have ended := atBreak_of_marker marker
        rcases rest : s.split.rest with _ | ⟨d, z⟩
        · rfl
        · rw [show (step st c r).split.rest = s.split.rest from rfl, rest, atBreak, List.isEmpty_cons, Bool.false_or,
            atLineEnd_cons_iff] at ended
          rw [rest] at line
          rcases ended with rfl | ⟨-, z, rfl⟩ <;> simp at line
      obtain ⟨z, dots⟩ : ∃ z, c :: s.split.taken = '.' :: '.' :: z := by
        rw [isMarker, Bool.and_eq_true, List.isPrefixOf_iff_prefix] at marker
        obtain ⟨z, dots⟩ := marker.2
        exact ⟨'.' :: z, dots.symm⟩
      refine ⟨c :: r, ?_, .inr ⟨z, ?_⟩⟩
      · rw [dropMarkers, if_pos marker, last, lexemes]
        rfl
      · rw [← dots, ← whole, last, List.append_nil]
    | false =>
      obtain ⟨tail, cut, dots⟩ := ih line.2.2
      refine ⟨tail, ?_, dots⟩
      rw [dropMarkers, if_neg (by simp [marker]), if_neg (by simp), spelled_cons, List.append_assoc, ← cut,
        List.cons_append, whole]

/-- A signature without outputs that a comma follows, unless an `=` comes behind it. -/
theorem lexemes_shared {n z : List Char} (word : isIdentifierChars n = true) (comma : z.head? = some ',') :
    lexemes .initial ("function ".toList ++ (n ++ z)) =
      (.keyword, "function".toList) :: (.whitespace, [' ']) ::
        if signatureHasOutputs 0 z then
          (.name, n) :: lexemes { signature := .outputs, afterOperand := true } z
        else (.nameFunction, n) :: lexemes { afterOperand := true } z := by
  have ident := all_isIdentRest_of_identifier word
  have found : signatureHasOutputs 0 (' ' :: (n ++ z)) = signatureHasOutputs 0 z := by
    have gap := signatureHasOutputs_gap (w := [' ']) (by simp [IsGap, isBlank]) 0 (n ++ z)
    rw [← signatureHasOutputs_word ident 0 z, ← gap]
    rfl
  obtain ⟨c, cs, rfl⟩ : ∃ c cs, n = c :: cs := by
    rcases n with _ | ⟨c, cs⟩
    · simp [isIdentifierChars] at word
    · exact ⟨c, cs, rfl⟩
  have stop : spaces (c :: cs ++ z) = ⟨[], c :: cs ++ z⟩ := by
    rw [List.all_cons, Bool.and_eq_true] at ident
    exact spaces_of_solid (not_isBlank_of_isIdentRest c ident.1) _
  have apart : NoBreak [' '] (c :: cs ++ z) := by simp [NoBreak]
  have gap := IsGap.space
  have first : Leads .initial _ _ (' ' :: (c :: cs ++ z)) := .function rfl rfl (by simp; decide)
  rw [found] at first
  have line : "function ".toList ++ (c :: cs ++ z) =
      spelled [(TokenKind.keyword, "function".toList)] ++ ' ' :: (c :: cs ++ z) := rfl
  rw [line, first]
  obtain ⟨d, r, rfl⟩ : ∃ d r, z = d :: r := by
    rcases z with _ | ⟨d, r⟩
    · simp at comma
    · exact ⟨d, r, rfl⟩
  obtain rfl : d = ',' := by simpa using comma
  have ends : endsDotted (',' :: r) = true := rfl
  have space (part : SignaturePart) : Leads { signature := part, afterOperand := true } [(.whitespace, [' '])]
      { signature := part } (c :: cs ++ ',' :: r) := .gap gap (by simp) apart stop rfl
  cases signatureHasOutputs 0 (',' :: r) with
  | true =>
    have output : Leads { signature := .outputs } _ _ (',' :: r) := .output rfl rfl word (by simp; decide)
    have whole := Leads.append (by simpa using space .outputs) output
    simpa [Leads] using whole
  | false =>
    have declared : Leads { signature := .name } _ _ (',' :: r) :=
      .declared rfl rfl (isDottedChars_of_identifier word) ends
    have whole := Leads.append (by simpa using space .name) declared
    simpa [Leads] using whole

end Lexer

namespace Cursor

theorem tokens_signature {outputs : List String} {c : Cursor} {result : (List String × Token) × Cursor}
    (read : c.signature outputs = .ok result) :
    result.2.tokens = c.tokens ∧ outputs <+: result.1.1 := by
  fun_induction signature outputs c generalizing result
  case case2 outputs c start t here _ =>
    cases read
    simp [start]
  case case3 outputs c start t here _ _ ih =>
    obtain ⟨same, more⟩ := ih read
    exact ⟨same.trans (by simp [start]), (List.prefix_append _ _).trans more⟩
  case case4 outputs c start t here _ _ _ ih =>
    obtain ⟨same, more⟩ := ih read
    exact ⟨same.trans (by simp [start]), more⟩
  all_goals simp at read

theorem tokens_parameters {c : Cursor} {result : List String × Cursor} (read : c.parameters = .ok result) :
    result.2.tokens = c.tokens := by
  have list {names : List String} {name : Bool} {c : Cursor} {result : List String × Cursor}
      (read : c.parametersFrom names name = .ok result) : result.2.tokens = c.tokens := by
    fun_induction parametersFrom names name c generalizing result
    case case2 names name c start t here _ =>
      cases read
      simp [start]
    case case3 names name c start t here _ _ ih => exact (ih read).trans (by simp [start])
    case case4 names name c start t here _ _ _ ih => exact (ih read).trans (by simp [start])
    all_goals simp at read
  unfold parameters at read
  split at read
  · next opened => exact (list read).trans (by simpa using tokens_take? opened)
  · cases read
    simp

end Cursor

namespace Reader

/-- On the last line of a text a function is read to its end whatever stands behind its signature, and only
its docstring depends on that. -/
theorem body_of_line (f : FunctionDoc) (r : Reader) (line : ∀ t ∈ r.cursor.tokens, t.isNewline = false) :
    ∃ doc c, (if sharesLine r.cursor.finishLine.2 then .ok (shortBody f (r.withCursor r.cursor.finishLine.2))
        else longBody f r.cursor.finishLine.1 (r.withCursor r.cursor.finishLine.2)) =
      Except.ok ({ f with doc := doc }, ⟨c, r.notes⟩) := by
  have same := r.cursor.tokens_finishLine
  generalize r.cursor.finishLine = finished at same ⊢
  obtain ⟨trailing, c⟩ := finished
  simp only at same ⊢
  by_cases shares : sharesLine c = true
  · rw [if_pos shares]
    simp only [shortBody, cursor_withCursor]
    split <;> exact ⟨_, _, rfl⟩
  · rw [if_neg shares]
    have last : c.rest = [] := by
      have ended : c.atEnd = true ∨ c.previous.any Token.isNewline = true := by
        simpa [sharesLine, or_iff_not_imp_left] using shares
      rcases ended with ended | newline
      · simpa [Cursor.atEnd] using ended
      · obtain ⟨t, before, newline⟩ := (Option.any_eq_true _ _).mp newline
        have inside : t ∈ c.tokens := by simp [Cursor.tokens, List.mem_of_head? before]
        simp [line t (same ▸ inside)] at newline
    obtain ⟨passed, rest⟩ := c
    obtain rfl : rest = [] := last
    have code : Cursor.commentRun ⟨passed, []⟩ = ([], ⟨passed, []⟩) := Cursor.commentRun_none rfl
    have blocks (f : FunctionDoc) := argumentBlocks_none f ⟨⟨passed, []⟩, r.notes⟩ (fun t here => by
      simp [Cursor.skip, Cursor.skipFrom, Cursor.peek] at here)
    simp only [longBody, withCursor, code, blocks]
    exact ⟨_, _, rfl⟩

variable {kw ws nm : Token} {rest : List Token} (keyword : kw.isKeyword "function" = true)
  (white : ws.isWhitespace = true) (line : ∀ t ∈ kw :: ws :: nm :: rest, t.isNewline = false)
include keyword white

theorem signature_behind_keyword (solid : nm.isWhitespace = false) (code : nm.isContinuation = false) :
    Cursor.skipWhitespace ((Cursor.skipIf ⟨[], kw :: ws :: nm :: rest⟩ (·.isKeyword "function"))) =
      ⟨[ws, kw], nm :: rest⟩ := by
  have blank : ∀ g ∈ [ws], g.isWhitespace = true := by simpa using white
  have first : Cursor.skipIf ⟨[], kw :: ws :: nm :: rest⟩ (·.isKeyword "function") = ⟨[kw], ws :: nm :: rest⟩ := by
    simp [Cursor.skipIf, Cursor.take?, keyword]
  rw [first]
  exact Cursor.skip_over blank solid code [kw] rest

include line

/-- A name that is read as an output is the first return value. -/
theorem returns_of_output (output : nm.kind = .name) {scope : String} {expected : Option String} {f : FunctionDoc}
    {r : Reader} (read : function scope expected ⟨⟨[], kw :: ws :: nm :: rest⟩, []⟩ = .ok (f, r)) :
    f.returns.names.head? = some nm.text := by
  have here : Cursor.skipWhitespace (Cursor.skipIf ⟨[], kw :: ws :: nm :: rest⟩ (·.isKeyword "function")) = _ :=
    signature_behind_keyword keyword white (by simp [Token.isWhitespace, output])
      (by simp [Token.isContinuation, output])
  have signed := Cursor.signature_here here []
  rw [if_neg (by simp [output]), if_pos (by simp [Cursor.isName, output]), List.nil_append] at signed
  rw [function, signed] at read
  cases outputs : Cursor.signature [nm.text] ⟨nm :: [ws, kw], rest⟩ with
  | error e => simp [outputs] at read
  | ok result =>
    obtain ⟨⟨outs, t⟩, c⟩ := result
    obtain ⟨same, more⟩ := Cursor.tokens_signature outputs
    simp only [outputs] at read
    cases params : c.parameters with
    | error e => simp [params] at read
    | ok result =>
      obtain ⟨list, c'⟩ := result
      have whole := (Cursor.tokens_parameters params).trans same
      have within : ∀ t ∈ c'.tokens, t.isNewline = false := by
        rw [whole]
        simpa [Cursor.tokens] using line
      obtain ⟨doc, c'', body⟩ := body_of_line
        { name := t.text, scope := scope, args := .ofNames list, returns := .ofNames outs }
        ((checkName ⟨c, []⟩ expected t.line t.text).withCursor c') within
      simp only [params] at read
      have result := Except.ok.inj (body.symm.trans read)
      obtain ⟨further, rfl⟩ := more
      rw [← (Prod.mk.inj result).1]
      rfl

/-- A declared name that an empty list stands behind is read with no return value. -/
theorem function_of_declared (declared : nm.kind = .nameFunction) {opening closing : Token} {more : List Token}
    (shape : rest = opening :: closing :: more) (opens : opening.isPunct "(" = true)
    (closes : closing.isPunct ")" = true) (scope : String) :
    ∃ doc c, function scope (some nm.text) ⟨⟨[], kw :: ws :: nm :: rest⟩, []⟩ =
      .ok ({ name := nm.text, scope := scope, doc := doc }, ⟨c, []⟩) := by
  have here : Cursor.skipWhitespace (Cursor.skipIf ⟨[], kw :: ws :: nm :: rest⟩ (·.isKeyword "function")) = _ :=
    signature_behind_keyword keyword white (by simp [Token.isWhitespace, declared])
      (by simp [Token.isContinuation, declared])
  have signed := Cursor.signature_here here []
  rw [if_pos (by simp [declared])] at signed
  subst shape
  have mark {t : Token} {mark : String} (punct : t.isPunct mark = true) :
      t.isWhitespace = false ∧ t.isContinuation = false := by
    simp only [Token.isPunct, Token.is, Bool.and_eq_true, beq_iff_eq] at punct
    simp [Token.isWhitespace, Token.isContinuation, punct.1]
  have listed : Cursor.parameters ⟨nm :: [ws, kw], opening :: closing :: more⟩ =
      .ok ([], ⟨closing :: opening :: nm :: [ws, kw], more⟩) := by
    have first : Cursor.skipWhitespace ⟨nm :: [ws, kw], opening :: closing :: more⟩ =
        ⟨nm :: [ws, kw], opening :: closing :: more⟩ :=
      Cursor.skip_over (List.forall_mem_nil _) (mark opens).1 (mark opens).2 _ _
    have second : Cursor.skipWhitespace ⟨opening :: nm :: [ws, kw], closing :: more⟩ =
        ⟨opening :: nm :: [ws, kw], closing :: more⟩ :=
      Cursor.skip_over (List.forall_mem_nil _) (mark closes).1 (mark closes).2 _ _
    simp only [Cursor.parameters, first, Cursor.take?, opens, if_true]
    rw [Cursor.parametersFrom_here second, if_pos closes]
  obtain ⟨doc, c, body⟩ := body_of_line { name := nm.text, scope := scope, args := .ofNames [], returns := .ofNames [] }
    ⟨⟨closing :: opening :: nm :: [ws, kw], more⟩, []⟩ (by simpa [Cursor.tokens] using line)
  refine ⟨doc, c, ?_⟩
  rw [function, signed]
  simp only [listed, checkName, if_true]
  exact body

end Reader

section Line

variable {code : String} (line : '\n' ∉ code.toList)
include line

theorem isNewline_of_line : ∀ t ∈ tokenize code, t.isNewline = false := by
  intro t member
  by_contra newline
  rw [Bool.not_eq_false] at newline
  have feed := one_le_feeds_of_newline (fun _ inside => inside) member newline
  rw [concat_tokenize, Text.feeds] at feed
  exact line (List.count_pos_iff.mp feed)

/-- A text of one line declares no method, so that only joining and completing change it. -/
theorem normalize_of_line : normalize code = completeSignatures (joinContinuedLines code) ∧
    '\n' ∉ (normalize code).toList := by
  have kept : '\n' ∉ (completeSignatures (joinContinuedLines code)).toList := by
    have joined := occurrences_dropContinuations_le '\n' false (tokenize code)
    have completed := occurrences_completeSignatures '\n' (joinContinuedLines code)
    rw [concat_tokenize, ← joinContinuedLines] at joined
    rw [show occurrences '\n' "()" = 0 by decide] at completed
    have none : occurrences '\n' code = 0 := List.count_eq_zero.mpr line
    exact List.count_eq_zero.mp (show occurrences '\n' _ = 0 by omega)
  have single : normalize code = completeSignatures (joinContinuedLines code) := by
    rw [normalize]
    apply expandStubs_of_settled
    have within := isNewline_of_line kept
    generalize tokenize (completeSignatures (joinContinuedLines code)) = ts at within
    have lines : tokenLines ts = [] ∨ tokenLines ts = [ts] := by
      induction ts with
      | nil => exact .inl rfl
      | cons t ts ih =>
        rw [List.forall_mem_cons] at within
        rcases ih within.2 with none | one
        · have empty : ts = [] := by rw [← flatten_tokenLines ts, none]; rfl
          simp [empty, tokenLines, within.1]
        · exact .inr (tokenLines_within within.1 one)
    rcases lines with none | one
    · rw [none]
      trivial
    · rw [one]
      exact ⟨rfl, trivial⟩
  exact ⟨single, single ▸ kept⟩

end Line

section Shared

variable {n r : String} (word : isIdentifier n = true) (comma : r.toList.head? = some ',') (line : '\n' ∉ r.toList)
include word

omit word in
theorem toList_shared : ("function " ++ n ++ r).toList = "function ".toList ++ (n.toList ++ r.toList) := by
  rw [String.toList_append, String.toList_append, List.append_assoc]

include line in
theorem feed_not_mem_shared : '\n' ∉ ("function " ++ n ++ r).toList := by
  have ident := List.all_eq_true.mp (all_isIdentRest_of_identifier word)
  rw [toList_shared, List.mem_append, List.mem_append, not_or, not_or]
  refine ⟨by decide, fun inside => ?_, line⟩
  exact absurd (ident _ inside) (by decide)

include comma line

/-- The tokens of the normal form of a signature that a comma follows. -/
theorem tokenize_normalize_shared :
    ∃ z : List Char, z.head? = some ',' ∧ Scan.signatureHasOutputs 0 z = Scan.signatureHasOutputs 0 r.toList ∧
      tokenize (normalize ("function " ++ n ++ r)) =
        Token.place 1 (withLists (Lexer.lexemes .initial ("function ".toList ++ (n.toList ++ z)))) := by
  obtain ⟨kind, st, named, lexed⟩ : ∃ kind st, (kind = .name ∨ kind = .nameFunction) ∧
      Lexer.lexemes .initial ("function ".toList ++ (n.toList ++ r.toList)) =
        (.keyword, "function".toList) :: (.whitespace, [' ']) :: (kind, n.toList) :: Lexer.lexemes st r.toList := by
    rw [Lexer.lexemes_shared word comma]
    split
    · exact ⟨_, _, .inl rfl, rfl⟩
    · exact ⟨_, _, .inr rfl, rfl⟩
  obtain ⟨tail, cut, dots⟩ := Lexer.exists_marker_of_line st line
  generalize behind : spelled (dropMarkers false (Lexer.lexemes st r.toList)) = z at cut
  have joined : (joinContinuedLines ("function " ++ n ++ r)).toList = "function ".toList ++ (n.toList ++ z) := by
    have other : isMarker (kind, n.toList) = false := by rcases named with rfl | rfl <;> rfl
    have stays {x : TokenKind × List Char} (other : isMarker x = false) (xs : List (TokenKind × List Char)) :
        dropMarkers false (x :: xs) = x :: dropMarkers false xs := by simp [dropMarkers, other]
    rw [toList_joinContinuedLines, keptLexemes, toList_shared, lexed, stays rfl, stays rfl, stays other, spelled_cons,
      spelled_cons, spelled_cons, behind]
    rfl
  refine ⟨z, ?_, ?_, ?_⟩
  · rcases z with _ | ⟨c, z⟩
    · rcases dots with rfl | ⟨z, rfl⟩ <;> simp [cut] at comma
    · simpa [cut] using comma
  · rcases dots with rfl | ⟨z', rfl⟩
    · rw [cut, List.append_nil]
    · rw [cut, Scan.signatureHasOutputs_marker]
  · rw [(normalize_of_line (feed_not_mem_shared word line)).1, tokenize_completeSignatures, joined]

omit word comma line in
theorem place_shared (kind : TokenKind) (n : String) (xs : List (TokenKind × List Char)) :
    ∃ line, Token.place 1 ((.keyword, "function".toList) :: (.whitespace, [' ']) :: (kind, n.toList) :: xs) =
      ⟨.keyword, "function", 1⟩ :: ⟨.whitespace, " ", 1⟩ :: ⟨kind, n, 1⟩ :: Token.place line xs := by
  refine ⟨1 + Text.feeds n.toList, ?_⟩
  rw [Token.place, Token.place, Token.place, String.ofList_toList (s := n)]
  rfl

omit line in
/-- Reading begins at the keyword of the normal form. -/
theorem parseUnit_of_line (location : Location) (scope : String) {kw : Token} {rest : List Token}
    (normal : tokenize (normalize ("function " ++ n ++ r)) = kw :: rest) (keyword : kw.kind = .keyword) :
    parseUnit location ("function " ++ n ++ r) n scope =
      .ofReader (placeOf location ("function " ++ n ++ r)) .function
        (Reader.function scope (some n) ⟨⟨[], kw :: rest⟩, []⟩) := by
  obtain ⟨front, more, own, isFunction⟩ : ∃ k more, tokenize ("function " ++ n ++ r) = k :: more ∧
      k.isKeyword "function" = true := by
    rw [tokenize, toList_shared, Lexer.lexemes_shared word comma]
    exact ⟨_, _, rfl, rfl⟩
  have kept := removeHeader_of_keyword (own.trans (List.nil_append _).symm) (List.forall_mem_nil _)
    (Token.kind_of_isKeyword isFunction)
  have unit := classify_of_function (List.forall_mem_nil _) isFunction more
  have start := Cursor.skipSpacing_of_keyword (List.forall_mem_nil _) keyword rest
  rw [List.nil_append] at unit start
  rw [parseUnit, own, unit, readerOf, kept, normal, start]
  rfl

/-- A function without outputs that a comma follows is read under its name, with no return value, just if no
`=` stands behind the comma where the search for outputs comes to it. Otherwise the name is read as the first
output. -/
theorem parseUnit_shared (location : Location) (scope : String) :
    (¬ Scan.Assigns 0 r.toList → (tokenize ("function " ++ n ++ r))[2]? = some ⟨.nameFunction, n, 1⟩ ∧
      ∃ doc, parseUnit location ("function " ++ n ++ r) n scope =
        ⟨.ok (.function { name := n, scope := scope, doc := doc }), []⟩) ∧
    (Scan.Assigns 0 r.toList → (tokenize ("function " ++ n ++ r))[2]? = some ⟨.name, n, 1⟩ ∧
      ∀ f, (parseUnit location ("function " ++ n ++ r) n scope).result = .ok (.function f) →
        f.returns.names.head? = some n) := by
  obtain ⟨z, head, same, normal⟩ := tokenize_normalize_shared word comma line
  have within := isNewline_of_line (normalize_of_line (feed_not_mem_shared word line)).2
  have plain : tokenize ("function " ++ n ++ r) =
      Token.place 1 (Lexer.lexemes .initial ("function ".toList ++ (n.toList ++ r.toList))) := by
    rw [tokenize, toList_shared]
  rw [Lexer.lexemes_shared word comma] at plain
  rw [Lexer.lexemes_shared word head] at normal
  rw [← Scan.signatureHasOutputs_iff, Bool.not_eq_true]
  constructor
  · intro free
    rw [free, if_neg (by simp)] at plain
    rw [same, free, if_neg (by simp)] at normal
    have lacks : takesList (Lexer.lexemes { afterOperand := true } z) = false := by
      obtain ⟨d, z, rfl⟩ : ∃ d z', z = d :: z' := by
        rcases z with _ | ⟨d, z⟩
        · simp at head
        · exact ⟨d, z, rfl⟩
      obtain rfl : d = ',' := by simpa using head
      rw [Lexer.lexemes]
      rfl
    have listed : withLists ((.keyword, "function".toList) :: (.whitespace, [' ']) :: (.nameFunction, n.toList) ::
        Lexer.lexemes { afterOperand := true } z) = (.keyword, "function".toList) :: (.whitespace, [' ']) ::
          (.nameFunction, n.toList) :: (.punctuation, ['(']) :: (.punctuation, [')']) ::
            withLists (Lexer.lexemes { afterOperand := true } z) := by
      rw [withLists, if_neg (by simp), withLists, if_neg (by simp), withLists, if_pos (by simp [lacks])]
    rw [listed] at normal
    obtain ⟨line₁, own⟩ := place_shared .nameFunction n (Lexer.lexemes { afterOperand := true } r.toList)
    obtain ⟨line₂, tokens⟩ := place_shared .nameFunction n ((.punctuation, ['(']) :: (.punctuation, [')']) ::
      withLists (Lexer.lexemes { afterOperand := true } z))
    have normal := normal.trans tokens
    rw [normal] at within
    obtain ⟨doc, c, result⟩ := Reader.function_of_declared rfl rfl within rfl rfl rfl rfl scope
    refine ⟨by rw [plain, own]; rfl, doc, ?_⟩
    rw [parseUnit_of_line word comma location scope normal rfl]
    simp only [result]
    rfl
  · intro found
    rw [found, if_pos rfl] at plain
    rw [same, found, if_pos rfl] at normal
    obtain ⟨line₁, own⟩ := place_shared .name n
      (Lexer.lexemes { signature := .outputs, afterOperand := true } r.toList)
    obtain ⟨line₂, tokens⟩ := place_shared .name n
      (withLists (Lexer.lexemes { signature := .outputs, afterOperand := true } z))
    have normal := normal.trans tokens
    refine ⟨by rw [plain, own]; rfl, fun f read => ?_⟩
    rw [parseUnit_of_line word comma location scope normal rfl] at read
    rw [normal] at within
    generalize Token.place line₂ _ = more at read within
    cases result : Reader.function scope (some n)
        ⟨⟨[], ⟨.keyword, "function", 1⟩ :: ⟨.whitespace, " ", 1⟩ :: ⟨.name, n, 1⟩ :: more⟩, []⟩ with
    | error e => simp [result, Parsed.ofReader] at read
    | ok found =>
      obtain ⟨f', reader⟩ := found
      obtain rfl : f' = f := by simpa [result, Parsed.ofReader] using read
      exact Reader.returns_of_output rfl rfl within rfl result

end Shared

theorem parseUnit_shared_samples :
    ((tokenize "function f, disp(x); end")[2]? = some ⟨.nameFunction, "f", 1⟩ ∧
      ∃ doc, parseUnit {} "function f, disp(x); end" "f" "s" =
        ⟨.ok (.function { name := "f", scope := "s", doc := doc }), []⟩) ∧
    (tokenize "function f, x = g, end")[2]? = some ⟨.name, "f", 1⟩ ∧
    ∃ f, (parseUnit {} "function f, x = g, end" "f" "s").result = .ok (.function f) ∧
      f.returns.names.head? = some "f" := by
  have shared {r : String} := parseUnit_shared (n := "f") (r := r) (by decide)
  have free := (shared (r := ", disp(x); end") (by decide) (by decide) {} "s").1
    (by rw [← Scan.signatureHasOutputs_iff]; decide)
  have found := (shared (r := ", x = g, end") (by decide) (by decide) {} "s").2
    (by rw [← Scan.signatureHasOutputs_iff]; decide)
  have read : (parseUnit {} "function f, x = g, end" "f" "s").result =
      .ok (.function { name := "g", scope := "s", returns := .ofNames ["f", "x"] }) := by
    decide +kernel
  exact ⟨free, found.1, _, read, found.2 _ read⟩

/-- A statement that assigns is taken for a part of the signature: `f` is read as an output, and the function is
not read at all. -/
theorem parseUnit_shared_assignment :
    (isIdentifier "f" = true ∧ ", x = 1, end".toList.head? = some ',' ∧ '\n' ∉ ", x = 1, end".toList) ∧
      (tokenize "function f, x = 1, end")[2]? = some ⟨.name, "f", 1⟩ ∧
      (parseUnit {} "function f, x = 1, end" "f" "").result =
        .error ⟨({} : Location).withLine 1, .malformedSignature .outputsOrName "`1`"⟩ := by
  decide +kernel

end MatlabOutline
