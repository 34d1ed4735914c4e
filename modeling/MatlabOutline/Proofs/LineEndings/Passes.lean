import MatlabOutline.Proofs.LineEndings.Recoding
import MatlabOutline.Proofs.Normalize.Origins

/-!
Header removal and the passes of normalization do not depend on how lines end: on a text without carriage
returns they commute with writing its line ends in the other way (`normalize_rewrite`).
-/

namespace MatlabOutline

open Scan in
/-- A comment that runs over lines begins with the mark of a block. -/
theorem Lexer.comment_with_feed {st : LexState} {c : Char} {r : List Char}
    (remark : (step st c r).kind = .comment) (feed : '\n' ∈ c :: (step st c r).split.taken) :
    ['%', '\x7b'].isPrefixOf (c :: (step st c r).split.taken) = true := by
  rcases step_with_feed feed with line | ⟨-, rfl⟩
  · simp [remark] at line
  have here : step st '%' r = comment st r := rfl
  rw [here, comment] at feed ⊢
  by_cases block : (st.lineStart && opensBlockComment r) = true
  · rw [if_pos block]
    rw [Bool.and_eq_true, opensBlockComment_eq, Bool.and_eq_true, beq_iff_eq] at block
    obtain ⟨body, first⟩ := List.head?_eq_some_iff.mp block.2.1
    simp [blockRest, Split.andThen, Split.prepend, first]
  · rw [if_neg block] at feed
    simp [feed_not_mem_lineBody] at feed

namespace Token

theorem mem_concat {ts : List Token} {c : Char} :
    c ∈ (concat ts).toList ↔ ∃ t ∈ ts, c ∈ t.text.toList := by
  induction ts with
  | nil => simp
  | cons t ts ih => simp [ih]

end Token

theorem carriage_not_mem_of_mem {s : String} (plain : '\r' ∉ s.toList) {t : Token} (member : t ∈ tokenize s) :
    '\r' ∉ t.text.toList := by
  intro inside
  rw [← concat_tokenize s] at plain
  exact plain (Token.mem_concat.mpr ⟨t, member, inside⟩)

/-- In a text without carriage returns, tokens are recoded by writing their line ends. -/
theorem recode_of_mem {s : String} (plain : '\r' ∉ s.toList) {t : Token} (member : t ∈ tokenize s) :
    t.recode = t.rewrite .carriage := by
  have kept (within : '\n' ∉ t.text.toList) : t.rewrite .carriage = t := by
    rw [Token.rewrite, LineEnding.rewrite, LineEnding.write_of_not_mem _ within, String.ofList_toList]
  by_cases line : t.kind = .newline
  · simp [Token.recode, Token.rewrite, line]
  by_cases remark : t.kind = .comment
  · rw [Token.recode_comment remark, Docstring.recode]
    split
    · rfl
    · next other =>
      have each := Lexer.forall_lexemes
        (motive := fun kind cs => kind = .comment → '\n' ∈ cs → ['%', '\x7b'].isPrefixOf cs = true)
        (fun _ _ _ => Lexer.comment_with_feed) .initial s.toList
      have within : '\n' ∉ t.text.toList := by
        intro feed
        have block := each _ (Token.mem_of_mem_place member) remark feed
        exact other (Docstring.isBlock_iff.mpr ⟨block, carriage_not_mem_of_mem plain member⟩)
      rw [kept within]
  · have within : Text.feeds t.text.toList = 0 :=
      feeds_of_plain member (by simp [Token.isNewline, line]) (by simp [Token.isRemark, remark])
    rw [Token.recode_of_kind line remark, kept (List.count_eq_zero.mp within)]

theorem tokenize_recode {s : String} (plain : '\r' ∉ s.toList) :
    tokenize (LineEnding.carriage.rewrite s) = (tokenize s).map Token.recode := by
  rw [tokenize_rewrite .carriage plain]
  exact List.map_congr_left fun t member => (recode_of_mem plain member).symm

namespace LineEnding

variable (e : LineEnding)

@[simp] theorem rewrite_append (a b : String) : e.rewrite (a ++ b) = e.rewrite a ++ e.rewrite b := by
  simp [rewrite, String.ofList_append]

theorem rewrite_of_not_mem {s : String} (within : '\n' ∉ s.toList) : e.rewrite s = s := by
  rw [rewrite, write_of_not_mem e within, String.ofList_toList]

theorem rewrite_join (texts : List String) : e.rewrite (String.join texts) = String.join (texts.map e.rewrite) := by
  induction texts with
  | nil => rfl
  | cons text texts ih => rw [String.join_cons, rewrite_append, ih, List.map_cons, String.join_cons]

end LineEnding

/-- The tokens of a text without carriage returns, or some of them. -/
def Faithful (ts : List Token) : Prop :=
  ∀ t ∈ ts, t.recode = t.rewrite .carriage

theorem Faithful.concat {ts : List Token} (faithful : Faithful ts) :
    Token.concat (ts.map Token.recode) = LineEnding.carriage.rewrite (Token.concat ts) := by
  have texts : (ts.map Token.recode).map Token.text = (ts.map Token.text).map LineEnding.carriage.rewrite := by
    rw [List.map_map, List.map_map]
    exact List.map_congr_left fun t member => congrArg Token.text (faithful t member)
  rw [Token.concat, texts, ← LineEnding.rewrite_join, Token.concat]

theorem Faithful.sublist {ts us : List Token} (faithful : Faithful us) (part : ts.Sublist us) : Faithful ts :=
  fun t member => faithful t (part.subset member)

theorem faithful_tokenize {s : String} (plain : '\r' ∉ s.toList) : Faithful (tokenize s) :=
  fun _ => recode_of_mem plain

@[simp] theorem Token.isHeader_recode (t : Token) : t.recode.isHeader = t.isHeader := by
  simp [isHeader]

theorem dropHeader_recode (line ts : List Token) :
    dropHeader (line.map Token.recode) (ts.map Token.recode) = (dropHeader line ts).map Token.recode := by
  fun_induction dropHeader line ts with
  | case1 => rfl
  | case2 line t r newline ih => simpa [dropHeader, newline] using ih
  | case3 line t r within header ih => simpa [dropHeader, within, header] using ih
  | case4 line t r within code => simp [dropHeader, within, code]

theorem removeHeader_rewrite {s : String} (plain : '\r' ∉ s.toList) :
    removeHeader (LineEnding.carriage.rewrite s) = LineEnding.carriage.rewrite (removeHeader s) := by
  have part : (dropHeader [] (tokenize s)).Sublist (tokenize s) := (dropHeader_final [] (tokenize s)).sublist
  have dropped := dropHeader_recode [] (tokenize s)
  rw [List.map_nil] at dropped
  rw [removeHeader, tokenize_recode plain, dropped, ((faithful_tokenize plain).sublist part).concat, removeHeader]

theorem headerLines_rewrite {s : String} (plain : '\r' ∉ s.toList) :
    headerLines (LineEnding.carriage.rewrite s) = headerLines s := by
  have feeds (s : String) : Text.feeds (LineEnding.carriage.rewrite s).toList = Text.feeds s.toList := by
    simp [LineEnding.rewrite]
  rw [headerLines, removeHeader_rewrite plain, feeds, feeds, headerLines]

theorem dropContinuations_recode (joined : Bool) (ts : List Token) :
    dropContinuations joined (ts.map Token.recode) = (dropContinuations joined ts).map Token.recode := by
  fun_induction dropContinuations joined ts with
  | case1 => rfl
  | case2 joined t r marker ih => simpa [dropContinuations, marker] using ih
  | case3 joined t r marker ends ih => simp_all [dropContinuations]
  | case4 joined t r marker ends ih => simp_all [dropContinuations]

theorem dropContinuations_sublist (joined : Bool) (ts : List Token) : (dropContinuations joined ts).Sublist ts := by
  fun_induction dropContinuations joined ts with
  | case1 => exact .slnil
  | case2 joined t r marker ih => exact ih.cons t
  | case3 joined t r marker ends ih => exact ih.cons t
  | case4 joined t r marker ends ih => exact ih.cons_cons t

theorem joinContinuedLines_rewrite {s : String} (plain : '\r' ∉ s.toList) :
    joinContinuedLines (LineEnding.carriage.rewrite s) = LineEnding.carriage.rewrite (joinContinuedLines s) := by
  have part := dropContinuations_sublist false (tokenize s)
  rw [joinContinuedLines, tokenize_recode plain, dropContinuations_recode,
    ((faithful_tokenize plain).sublist part).concat, joinContinuedLines]

theorem takeWhile_recode {p : Token → Bool} (same : ∀ t, p t.recode = p t) (ts : List Token) :
    (ts.map Token.recode).takeWhile p = (ts.takeWhile p).map Token.recode := by
  rw [List.takeWhile_map, show p ∘ Token.recode = p from funext same]

theorem dropWhile_recode {p : Token → Bool} (same : ∀ t, p t.recode = p t) (ts : List Token) :
    (ts.map Token.recode).dropWhile p = (ts.dropWhile p).map Token.recode := by
  rw [List.dropWhile_map, show p ∘ Token.recode = p from funext same]

theorem startsParameters_recode (ts : List Token) :
    startsParameters (ts.map Token.recode) = startsParameters ts := by
  rw [startsParameters, dropWhile_recode Token.isWhitespace_recode, List.head?_map, Option.any_map]
  simp [startsParameters]

theorem Faithful.signatureTexts {ts : List Token} (faithful : Faithful ts) :
    signatureTexts (ts.map Token.recode) = (signatureTexts ts).map LineEnding.carriage.rewrite := by
  have list : LineEnding.carriage.rewrite "()" = "()" := by decide
  induction ts with
  | nil => rfl
  | cons t ts ih =>
    have text : t.recode.text = LineEnding.carriage.rewrite t.text := by rw [faithful t (by simp)]; rfl
    have rest := ih (faithful.sublist (List.sublist_cons_self t ts))
    simp only [List.map_cons, MatlabOutline.signatureTexts, Token.kind_recode, startsParameters_recode, rest, text]
    split
    · simp [list]
    · rfl

theorem completeSignatures_rewrite {s : String} (plain : '\r' ∉ s.toList) :
    completeSignatures (LineEnding.carriage.rewrite s) = LineEnding.carriage.rewrite (completeSignatures s) := by
  rw [completeSignatures, tokenize_recode plain, (faithful_tokenize plain).signatureTexts,
    ← LineEnding.rewrite_join, completeSignatures]

theorem tokenLines_recode (ts : List Token) :
    tokenLines (ts.map Token.recode) = (tokenLines ts).map (List.map Token.recode) := by
  fun_induction tokenLines ts with
  | case1 => rfl
  | case2 t r newline ih => simp [tokenLines, newline, ih]
  | case3 t r within empty ih => simp [tokenLines, within, ih, empty]
  | case4 t r within l ls cut ih => simp [tokenLines, within, ih, cut]

@[simp] theorem Nesting.step_recode (n : Nesting) (t : Token) : n.step t.recode = n.step t := by
  by_cases word : t.kind = .keyword
  · rw [Token.recode_of_kind (by simp [word]) (by simp [word])]
  · simp [step, beq_false_of_ne word]

theorem foldl_step_recode (n : Nesting) (line : List Token) :
    (line.map Token.recode).foldl Nesting.step n = line.foldl Nesting.step n := by
  simp [List.foldl_map]

theorem isStubLine_recode (line : List Token) : isStubLine (line.map Token.recode) = isStubLine line := by
  rw [isStubLine, dropWhile_recode Token.isWhitespace_recode, List.head?_map, Option.any_map]
  simp [isStubLine]

@[simp] theorem endsDeclaration_recode (t : Token) : endsDeclaration t.recode = endsDeclaration t := by
  simp [endsDeclaration]

theorem expandStub_recode {code : String} (plain : '\r' ∉ code.toList) {line : List Token}
    (inside : ∀ t ∈ line, t ∈ tokenize code) :
    expandStub (line.map Token.recode) = LineEnding.carriage.rewrite (expandStub line) := by
  have faithful : Faithful line := fun t member => recode_of_mem plain (inside t member)
  have margin := (faithful.sublist (List.takeWhile_sublist Token.isWhitespace)).concat
  have behind := faithful.sublist (List.dropWhile_sublist Token.isWhitespace)
  have declared := (behind.sublist (List.takeWhile_sublist (!endsDeclaration ·))).concat
  have ending := (behind.sublist (List.dropWhile_sublist (!endsDeclaration ·))).concat
  have within : '\n' ∉ (Token.concat
      ((line.dropWhile Token.isWhitespace).takeWhile (!endsDeclaration ·))).toList :=
    List.count_eq_zero.mp (feeds_declaration inside)
  rw [LineEnding.rewrite_of_not_mem _ within] at declared
  have kept : LineEnding.carriage.rewrite (String.ofList (trimDeclaration (Token.concat
      ((line.dropWhile Token.isWhitespace).takeWhile (!endsDeclaration ·))).toList)) = _ :=
    LineEnding.rewrite_of_not_mem _ fun member =>
      within ((trimDeclaration_initial _).subset (by rwa [String.toList_ofList] at member))
  have word : LineEnding.carriage.rewrite "function " = "function " := by decide
  have close : LineEnding.carriage.rewrite "; end" = "; end" := by decide
  have gap (remark : Bool) :
      LineEnding.carriage.rewrite (if remark then " " else "") = if remark then " " else "" := by
    cases remark <;> decide
  have first (ts : List Token) : (ts.map Token.recode).head?.any Token.isRemark = ts.head?.any Token.isRemark := by
    rw [List.head?_map, Option.any_map]
    simp
  simp only [expandStub, takeWhile_recode Token.isWhitespace_recode, dropWhile_recode Token.isWhitespace_recode,
    takeWhile_recode (p := (!endsDeclaration ·)) (by simp), dropWhile_recode (p := (!endsDeclaration ·)) (by simp),
    margin, declared, ending, first, LineEnding.rewrite_append, gap, word, close, kept]

theorem expandLines_recode {code : String} (plain : '\r' ∉ code.toList) (n : Nesting) {lines : List (List Token)}
    (inside : ∀ line ∈ lines, ∀ t ∈ line, t ∈ tokenize code) :
    expandLines n (lines.map (List.map Token.recode)) =
      (expandLines n lines).map LineEnding.carriage.rewrite := by
  induction lines generalizing n with
  | nil => rfl
  | cons line lines ih =>
    rw [List.forall_mem_cons] at inside
    have faithful : Faithful line := fun t member => recode_of_mem plain (inside.1 t member)
    simp only [List.map_cons, expandLines, isStubLine_recode, foldl_step_recode, ih _ inside.2,
      expandStub_recode plain inside.1, faithful.concat]
    split <;> rfl

theorem expandStubs_rewrite {s : String} (plain : '\r' ∉ s.toList) :
    expandStubs (LineEnding.carriage.rewrite s) = LineEnding.carriage.rewrite (expandStubs s) := by
  rw [expandStubs, tokenize_recode plain, tokenLines_recode,
    expandLines_recode plain {} fun line listed t member => mem_of_mem_tokenLines listed member,
    ← LineEnding.rewrite_join, expandStubs]

section Carriages

open Edit

theorem Edit.not_mem_target {es : List Edit} {c : Char} (old : c ∉ source es) (new : add c ∉ es) :
    c ∉ target es := by
  induction es with
  | nil => simp [target]
  | cons e es ih =>
    rw [List.mem_cons, not_or] at new
    cases e with
    | keep d =>
      rw [source, List.mem_cons, not_or] at old
      rw [target, List.mem_cons, not_or]
      exact ⟨old.1, ih old.2 new.2⟩
    | cut d =>
      rw [source, List.mem_cons, not_or] at old
      exact ih old.2 new.2
    | add d =>
      rw [target, List.mem_cons, not_or]
      exact ⟨fun same => new.1 (by rw [same]), ih old new.2⟩

@[simp] theorem Edit.add_mem_keeps (c : Char) (cs : List Char) : add c ∈ keeps cs ↔ False := by
  simp [keeps]

@[simp] theorem Edit.add_mem_removes (c : Char) (cs : List Char) : add c ∈ removes cs ↔ False := by
  simp [removes]

@[simp] theorem Edit.add_mem_inserts (c : Char) (cs : List Char) : add c ∈ inserts cs ↔ c ∈ cs := by
  simp [inserts]

theorem carriage_not_added_join (joined : Bool) (ts : List Token) : add '\r' ∉ joinEditsFrom joined ts := by
  fun_induction joinEditsFrom joined ts <;> simp_all

theorem carriage_not_added_signature (ts : List Token) : add '\r' ∉ signatureEditsFrom ts := by
  fun_induction signatureEditsFrom ts <;> simp_all

theorem carriage_not_added_stub (n : Nesting) (lines : List (List Token)) : add '\r' ∉ stubEditsFrom n lines := by
  have line (line : List Token) : add '\r' ∉ stubLineEdits line := by
    simp only [stubLineEdits]
    split <;> simp
  fun_induction stubEditsFrom n lines <;> simp_all

variable {s : String} (plain : '\r' ∉ s.toList)

include plain

theorem carriage_not_mem_join : '\r' ∉ (joinContinuedLines s).toList := by
  rw [← target_joinEdits]
  rw [← source_joinEdits] at plain
  exact not_mem_target plain (carriage_not_added_join _ _)

theorem carriage_not_mem_signature : '\r' ∉ (completeSignatures s).toList := by
  rw [← target_signatureEdits]
  rw [← source_signatureEdits] at plain
  exact not_mem_target plain (carriage_not_added_signature _)

theorem carriage_not_mem_stub : '\r' ∉ (expandStubs s).toList := by
  rw [← target_stubEdits]
  rw [← source_stubEdits] at plain
  exact not_mem_target plain (carriage_not_added_stub _ _)

theorem carriage_not_mem_header : '\r' ∉ (removeHeader s).toList := by
  rw [← drop_headerSize]
  exact fun member => plain (List.mem_of_mem_drop member)

theorem carriage_not_mem_normalize : '\r' ∉ (normalize s).toList :=
  carriage_not_mem_stub (carriage_not_mem_signature (carriage_not_mem_join plain))

end Carriages

theorem normalize_rewrite {s : String} (plain : '\r' ∉ s.toList) :
    normalize (LineEnding.carriage.rewrite s) = LineEnding.carriage.rewrite (normalize s) := by
  have joined := carriage_not_mem_join plain
  have signed := carriage_not_mem_signature joined
  rw [normalize, joinContinuedLines_rewrite plain, completeSignatures_rewrite joined, expandStubs_rewrite signed,
    normalize]

end MatlabOutline
