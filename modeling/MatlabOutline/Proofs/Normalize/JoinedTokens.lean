import MatlabOutline.Proofs.Lexing.Context
import MatlabOutline.Proofs.Normalize.FixedPoints

/-!
The tokens of a text whose continued lines are joined. A marker is deleted and leaves nothing behind,
so that what follows it is read in another context: right behind the token before it, and within a
line. Main statement: the tokens are kept exactly when no two of them merge, no string comes right
behind an operand and no block comment behind other tokens of its line
(`visibleTexts_joinContinuedLines_iff`).
-/

namespace MatlabOutline

open Lexer Scan

/-- The lexemes without continuation markers and the line ends right behind them; `joined` says that
a marker comes right before. -/
def dropMarkers (joined : Bool) : List (TokenKind × List Char) → List (TokenKind × List Char)
  | [] => []
  | x :: xs =>
    if isMarker x then dropMarkers true xs
    else if joined && x.1 == .newline then dropMarkers false xs
    else x :: dropMarkers false xs

/-- A string behind an operand is a lone quote. -/
def LoneQuote (o x : TokenKind × List Char) : Prop :=
  isOperand o = true → x.1 = .string → x.2.head? = some '\'' → x.2 = ['\'']

/-- A comment over lines begins its line. -/
def OwnLine (o x : TokenKind × List Char) : Prop :=
  x.1 = .comment → '\n' ∈ x.2 → o.1 = .newline

theorem isMarker_of_comment {st : LexState} {r : List Char} (comment : (step st '.' r).kind = .comment) :
    isMarker ((step st '.' r).kind, '.' :: (step st '.' r).split.taken) = true := by
  rw [step_point] at comment ⊢
  fun_cases dot st r
  case case1 s => simp [isMarker, lineBody, Split.push]
  all_goals simp_all [dot]

/-- A line ends behind a continuation marker, or the text does. -/
theorem atBreak_of_marker {st : LexState} {c : Char} {r : List Char}
    (marker : isMarker ((step st c r).kind, c :: (step st c r).split.taken) = true) :
    atBreak (step st c r).split.rest = true := by
  rw [isMarker, Bool.and_eq_true, beq_iff_eq, List.isPrefixOf_iff_prefix] at marker
  obtain ⟨kind, dots⟩ := marker
  obtain rfl : '.' = c := (List.cons_prefix_cons.mp dots).1
  rw [step_point] at kind ⊢
  revert kind
  fun_cases dot st r
  case case1 s => exact fun _ => atBreak_lineBody _
  all_goals simp

/-- Joining changes nothing up to the end of the line. -/
theorem padded_dropMarkers (st : LexState) {r : List Char} (ended : atBreak r = true) :
    Padded r (spelled (dropMarkers false (lexemes st r))) := by
  rcases r with _ | ⟨c, r⟩
  · simp [lexemes, dropMarkers, Padded.nil]
  have ended : atLineEnd (c :: r) = true := by simpa [atBreak] using ended
  rcases atLineEnd_cons_iff.mp ended with rfl | ⟨rfl, s, rfl⟩
  · rw [lexemes]
    exact .line _ _
  · rw [lexemes]
    exact .cons '\r' (.line _ _)

theorem isChain_of_option {R : TokenKind × List Char → TokenKind × List Char → Prop}
    {o : Option (TokenKind × List Char)} {x : TokenKind × List Char}
    {xs : List (TokenKind × List Char)} (chain : (o.toList ++ x :: xs).IsChain R) :
    (∀ y ∈ o, R y x) ∧ (x :: xs).IsChain R := by
  cases o with
  | none => simpa using chain
  | some y => simpa using chain

/-- What holds while the joined text is lexed. The lexemes of `cs` from state `st` are to be joined,
and those that are kept stand from place `n` on, where the lexer of the joined text is in state `sj`.
Before them come `before`, the last kept lexeme, and `solid`, the last that is no white space. -/
structure Joins (st sj : LexState) (cs : List Char) (joined : Bool) (n : Nat)
    (before solid : Option (TokenKind × List Char)) (kept : List (TokenKind × List Char)) : Prop where
  keeps : dropMarkers joined (lexemes st cs) = kept
  named : ∀ x ∈ lexemes st cs, x.1 = .keyword → x.2 ≠ "function".toList
  /-- Behind a marker only a line end can come, and then a line begins. -/
  related : Related (if joined then .initial else st) sj
  ended : joined = true → atBreak cs = true
  start : (∀ o ∈ solid, o.1 = .newline) → sj.lineStart = true
  operand : sj.afterOperand = true → (spelled kept).head? = some '\'' →
    ∃ o ∈ before, isOperand o = true
  apart : Apart (spans n (lexemes sj (spelled kept))) (ends n kept)
  quotes : (before.toList ++ kept).IsChain LoneQuote
  blocks : (solid.toList ++ visible kept).IsChain OwnLine

namespace Joins

variable {st sj : LexState} {c : Char} {r : List Char} {joined : Bool} {n : Nat}
  {before solid : Option (TokenKind × List Char)} {kept : List (TokenKind × List Char)}

theorem named_tail (joins : Joins st sj (c :: r) joined n before solid kept) :
    ∀ x ∈ lexemes (step st c r).next (step st c r).split.rest,
      x.1 = .keyword → x.2 ≠ "function".toList := by
  have named := joins.named
  rw [lexemes, List.forall_mem_cons] at named
  exact named.2

theorem marker (joins : Joins st sj (c :: r) joined n before solid kept)
    (dropped : isMarker ((step st c r).kind, c :: (step st c r).split.taken) = true) :
    Joins (step st c r).next sj (step st c r).split.rest true n before solid kept where
  keeps := by
    have keeps := joins.keeps
    rwa [lexemes, dropMarkers, if_pos dropped] at keeps
  named := joins.named_tail
  related := joins.related.initial
  ended _ := atBreak_of_marker dropped
  start := joins.start
  operand := joins.operand
  apart := joins.apart
  quotes := joins.quotes
  blocks := joins.blocks

theorem newline (joins : Joins st sj (c :: r) true n before solid kept) :
    Joins (step st c r).next sj (step st c r).split.rest false n before solid kept := by
  have ended : atLineEnd (c :: r) = true := by simpa [atBreak] using joins.ended rfl
  have here : (step st c r).kind = .newline ∧ (step st c r).next = .initial := by
    rcases atLineEnd_cons_iff.mp ended with rfl | ⟨rfl, s, rfl⟩ <;> exact ⟨rfl, rfl⟩
  have other : isMarker ((step st c r).kind, c :: (step st c r).split.taken) = false := by
    simp [isMarker, here.1]
  exact {
    keeps := by
      have keeps := joins.keeps
      rw [lexemes, dropMarkers, other] at keeps
      simpa [here.1] using keeps
    named := joins.named_tail
    related := by simpa [here.2] using joins.related
    ended := by simp
    start := joins.start
    operand := joins.operand
    apart := joins.apart
    quotes := joins.quotes
    blocks := joins.blocks }

/-- Where no marker comes before, every other lexeme is kept. -/
theorem kept_eq (joins : Joins st sj (c :: r) false n before solid kept)
    (other : isMarker ((step st c r).kind, c :: (step st c r).split.taken) = false) :
    kept = ((step st c r).kind, c :: (step st c r).split.taken) ::
      dropMarkers false (lexemes (step st c r).next (step st c r).split.rest) := by
  rw [← joins.keeps, lexemes, dropMarkers, other]
  simp

theorem space (joins : Joins st sj (c :: r) false n before solid kept)
    (blank : (step st c r).kind = .whitespace) :
    ∃ w rest, kept = (.whitespace, w) :: rest ∧
      spans n (lexemes sj (spelled kept)) = spans (n + w.length) (lexemes sj.blank (spelled rest)) ∧
      Joins (step st c r).next sj.blank (step st c r).split.rest false (n + w.length)
        (some (.whitespace, w)) solid rest := by
  have other : isMarker ((step st c r).kind, c :: (step st c r).split.taken) = false := by
    simp [isMarker, blank]
  have shape := joins.kept_eq other
  have gap : IsGap (c :: (step st c r).split.taken) := by
    have shaped := isShaped_step st c r
    rwa [IsShaped, if_pos blank] at shaped
  have next : (step st c r).next = st.blank := by rw [step_of_space blank]
  rw [blank] at shape
  subst shape
  have whole : Apart (spans n (lexemes sj ((c :: (step st c r).split.taken) ++ spelled
      (dropMarkers false (lexemes (step st c r).next (step st c r).split.rest)))))
      [n + (c :: (step st c r).split.taken).length] :=
    joins.apart.mono (List.Subset.refl _) (by simp [ends])
  have moved := spans_gap (by simp) gap (noBreak_of_apart gap whole) sj n
  refine ⟨_, _, rfl, moved, ?_⟩
  exact {
    keeps := rfl
    named := joins.named_tail
    related := by simpa [next] using joins.related.after_blank
    ended := by simp
    start := joins.start
    operand := by simp [LexState.blank]
    apart := by
      rw [← moved]
      exact joins.apart.mono (List.Subset.refl _) (List.subset_cons_self _ _)
    quotes := (isChain_of_option joins.quotes).2
    blocks := by simpa [visible_space] using joins.blocks }

/-- A kept lexeme that is no white space is read as well where it stands in the joined text. -/
theorem agrees {rest : List (TokenKind × List Char)} (joins : Joins st sj (c :: r) false n before solid
      (((step st c r).kind, c :: (step st c r).split.taken) :: rest))
    (other : isMarker ((step st c r).kind, c :: (step st c r).split.taken) = false)
    (shown : (step st c r).kind ≠ .whitespace) :
    Agrees c (step st c r) (step sj c ((step st c r).split.taken ++ spelled rest)) (spelled rest) := by
  have behind : rest = dropMarkers false (lexemes (step st c r).next (step st c r).split.rest) :=
    (List.cons.inj (joins.kept_eq other)).2
  have blocks := joins.blocks
  rw [visible_solid shown] at blocks
  have related : Related st sj := joins.related
  apply agrees_step (n := n) related shown
  · rintro rfl comment
    rw [isMarker_of_comment comment] at other
    exact absurd other (by simp)
  · exact joins.named _ (by rw [lexemes]; exact List.mem_cons_self)
  · exact joins.apart.mono (List.Subset.refl _) (by simp [ends])
  · intro ended
    rw [behind]
    exact padded_dropMarkers _ ended
  · rintro after rfl string
    obtain ⟨o, member, operand⟩ := joins.operand after rfl
    simpa using (isChain_of_option joins.quotes).1 o member operand string rfl
  · rintro rfl feed
    have comment : (step st '%' r).kind = .comment := by
      rw [step_remark, comment]
      split <;> rfl
    exact joins.start fun o member =>
      (isChain_of_option blocks).1 o member comment (List.mem_cons_of_mem _ feed)

theorem solid_step (joins : Joins st sj (c :: r) false n before solid kept)
    (other : isMarker ((step st c r).kind, c :: (step st c r).split.taken) = false)
    (shown : (step st c r).kind ≠ .whitespace) :
    ∃ x rest sj', kept = x :: rest ∧ x.1 ≠ .whitespace ∧
      spans n (lexemes sj (spelled kept)) =
        (n, x.2) :: spans (n + x.2.length) (lexemes sj' (spelled rest)) ∧
      Joins (step st c r).next sj' (step st c r).split.rest false (n + x.2.length) (some x) (some x)
        rest := by
  have shape := joins.kept_eq other
  generalize behind : dropMarkers false (lexemes (step st c r).next (step st c r).split.rest) = rest at shape
  subst shape
  have agrees := joins.agrees other shown
  have blocks := joins.blocks
  rw [visible_solid shown] at blocks
  have lexed : spans n (lexemes sj (c :: ((step st c r).split.taken ++ spelled rest))) =
      (n, c :: (step st c r).split.taken) :: spans (n + (c :: (step st c r).split.taken).length)
        (lexemes (step sj c ((step st c r).split.taken ++ spelled rest)).next (spelled rest)) := by
    rw [lexemes, spans_solid agrees.solid, agrees.split]
  refine ⟨_, rest, _, rfl, shown, lexed, ?_⟩
  exact {
    keeps := behind
    named := joins.named_tail
    related := agrees.related
    ended := by simp
    start := by
      intro newline
      rw [next_newline (newline _ rfl)]
      rfl
    operand := fun after quote => ⟨_, rfl, agrees.operand after quote⟩
    apart := by
      apply joins.apart.mono
      · rw [spelled_cons, List.cons_append, lexed]
        exact List.subset_cons_self _ _
      · exact List.subset_cons_self _ _
    quotes := (isChain_of_option joins.quotes).2
    blocks := (isChain_of_option blocks).2 }

end Joins

/-- If no lexeme takes a part of a kept one, no string is read behind an operand and no comment over
lines behind anything in its line, then joining keeps the lexemes. -/
theorem Joins.spans_eq {st sj : LexState} {cs : List Char} {joined : Bool} {n : Nat}
    {before solid : Option (TokenKind × List Char)} {kept : List (TokenKind × List Char)}
    (joins : Joins st sj cs joined n before solid kept) :
    spans n (lexemes sj (spelled kept)) = spans n kept := by
  induction st, cs using lexemes.induct generalizing sj joined n before solid kept with
  | case1 st =>
    rw [← joins.keeps]
    simp [lexemes, dropMarkers, spans]
  | case2 st c r s =>
    rename_i ih
    cases marker : isMarker ((step st c r).kind, c :: (step st c r).split.taken) with
    | true => exact ih (joins.marker marker)
    | false =>
      cases joined with
      | true => exact ih joins.newline
      | false =>
        by_cases blank : (step st c r).kind = .whitespace
        · obtain ⟨w, rest, rfl, moved, further⟩ := joins.space blank
          rw [moved, spans_space rfl, ih further]
        · obtain ⟨x, rest, sj', rfl, shown, lexed, further⟩ := joins.solid_step marker blank
          rw [lexed, spans_solid shown, ih further]

theorem mem_dropMarkers {joined : Bool} {xs : List (TokenKind × List Char)}
    {x : TokenKind × List Char} (member : x ∈ dropMarkers joined xs) : x ∈ xs ∧ isMarker x = false := by
  fun_induction dropMarkers joined xs with
  | case1 => simp at member
  | case2 joined y ys _ ih => exact ⟨List.mem_cons_of_mem _ (ih member).1, (ih member).2⟩
  | case3 joined y ys _ _ ih => exact ⟨List.mem_cons_of_mem _ (ih member).1, (ih member).2⟩
  | case4 joined y ys other _ ih =>
    rcases List.mem_cons.mp member with rfl | later
    · exact ⟨List.mem_cons_self, by simpa using other⟩
    · exact ⟨List.mem_cons_of_mem _ (ih later).1, (ih later).2⟩

/-- What holds of every step holds of every kept lexeme. -/
theorem forall_dropMarkers {motive : TokenKind × List Char → Prop}
    (each : ∀ st c r, motive ((step st c r).kind, c :: (step st c r).split.taken)) (st : LexState)
    (cs : List Char) : ∀ x ∈ dropMarkers false (lexemes st cs), motive x :=
  fun x member => forall_lexemes (motive := fun kind cs => motive (kind, cs)) each st cs x
    (mem_dropMarkers member).1

section Texts

variable {cs : List Char}

/-- The kept lexemes of a text. -/
def keptLexemes (cs : List Char) : List (TokenKind × List Char) :=
  dropMarkers false (lexemes .initial cs)

/-- The lexemes of a text after joining. -/
def joinedLexemes (cs : List Char) : List (TokenKind × List Char) :=
  lexemes .initial (spelled (keptLexemes cs))

theorem spans_eq_of_joined_texts
    (texts : (visible (joinedLexemes cs)).map Prod.snd = (visible (keptLexemes cs)).map Prod.snd) :
    spans 0 (joinedLexemes cs) = spans 0 (keptLexemes cs) := by
  apply spans_eq_of_texts (isShaped_lexemes _ _) (forall_dropMarkers isShaped_step _ _)
  · exact lexemes_flatten _ _
  · rw [texts_spans, texts_spans]
    exact texts

theorem isChain_quotes_of_spans (same : spans 0 (joinedLexemes cs) = spans 0 (keptLexemes cs)) :
    (keptLexemes cs).IsChain LoneQuote := by
  have filled : ∀ x ∈ joinedLexemes cs, x.2 ≠ [] :=
    forall_lexemes (motive := fun _ cs => cs ≠ []) (by simp) _ _
  have quotes := isChain_quotes .initial (spelled (keptLexemes cs))
  have spread := isChain_spans (P := QuoteAlone) (n := 0) filled
    (quotes.imp fun _ _ alone _ _ => alone)
  rw [same] at spread
  apply (isChain_of_spans spread).imp_of_mem_imp
  intro o x member _ alone operand string
  have text : endsOperand o.2 = true :=
    forall_dropMarkers (motive := fun x => isOperand x = true → endsOperand x.2 = true)
      (fun _ _ _ => endsOperand_of_isOperand) _ _ o member operand
  apply alone _ (by simp [string]) text
  intro space
  simp [isOperand, space] at operand

theorem isChain_blocks_of_texts
    (texts : (visible (joinedLexemes cs)).map Prod.snd = (visible (keptLexemes cs)).map Prod.snd) :
    (visible (keptLexemes cs)).IsChain OwnLine := by
  have blocks : (visible (joinedLexemes cs)).IsChain fun x y => BlockBegins x.2 y.2 :=
    @isChain_blocks .initial _ none (by simp)
  rw [← List.isChain_map (R := BlockBegins), texts, List.isChain_map] at blocks
  apply blocks.imp_of_mem_imp
  intro o x before behind begins comment feed
  rw [mem_visible] at before behind
  have mark : x.2.head? = some '%' := by
    have each := forall_dropMarkers
      (motive := fun x => '\n' ∈ x.2 → x.1 = .newline ∨ x.1 = .comment ∧ x.2.head? = some '%')
      (fun st c r feed => (step_with_feed feed).imp_right fun h => ⟨h.1, by simp [h.2]⟩)
      .initial cs x behind.1 feed
    rcases each with newline | ⟨_, mark⟩
    · simp [comment] at newline
    · exact mark
  exact forall_dropMarkers
    (motive := fun o => o.1 ≠ .whitespace → isLineEnd o.2 = true → o.1 = .newline)
    (fun _ _ _ => newline_of_isLineEnd) .initial cs o before.1 before.2 (begins mark feed)

/-- Three dots in front make a continuation marker. -/
theorem isMarker_of_dots {st : LexState} {c : Char} {r : List Char}
    (dots : ['.', '.', '.'] <+: c :: (step st c r).split.taken) :
    isMarker ((step st c r).kind, c :: (step st c r).split.taken) = true := by
  obtain ⟨rfl, further⟩ := List.cons_prefix_cons.mp dots
  have whole := step_whole st '.' r
  obtain ⟨z, taken⟩ := further
  rw [Split.whole, ← taken] at whole
  rw [isMarker, Bool.and_eq_true, List.isPrefixOf_iff_prefix, ← whole, step_point]
  rw [← whole, step_point] at dots
  refine ⟨?_, dots⟩
  simp only [List.cons_append, dot_marker]
  rfl

theorem unbroken_of_texts
    (texts : (visible (joinedLexemes cs)).map Prod.snd = (visible (keptLexemes cs)).map Prod.snd) :
    ∀ x ∈ joinedLexemes cs, isMarker x = false := by
  intro x member
  cases marker : isMarker x with
  | false => rfl
  | true =>
    rw [isMarker, Bool.and_eq_true, beq_iff_eq, List.isPrefixOf_iff_prefix] at marker
    have text : x.2 ∈ (visible (keptLexemes cs)).map Prod.snd := by
      rw [← texts]
      exact List.mem_map_of_mem (mem_visible.mpr ⟨member, by simp [marker.1]⟩)
    obtain ⟨y, shown, same⟩ := List.mem_map.mp text
    have kept := (mem_visible.mp shown).1
    have dots := forall_dropMarkers (motive := fun y => ['.', '.', '.'] <+: y.2 → isMarker y = true)
      (fun _ _ _ => isMarker_of_dots) .initial cs y kept (by rw [same]; exact marker.2)
    rw [(mem_dropMarkers kept).2] at dots
    simp at dots

/-- Joining keeps the lexemes just if none takes a part of another, no string comes to stand right
behind an operand, and no comment over lines behind anything in its line. -/
theorem texts_joined_iff
    (named : ∀ x ∈ lexemes .initial cs, x.1 = .keyword → x.2 ≠ "function".toList) :
    (visible (joinedLexemes cs)).map Prod.snd = (visible (keptLexemes cs)).map Prod.snd ↔
      Apart (spans 0 (joinedLexemes cs)) (ends 0 (keptLexemes cs)) ∧
        (keptLexemes cs).IsChain LoneQuote ∧ (visible (keptLexemes cs)).IsChain OwnLine := by
  constructor
  · intro texts
    have same := spans_eq_of_joined_texts texts
    refine ⟨?_, isChain_quotes_of_spans same, isChain_blocks_of_texts texts⟩
    rw [same]
    exact apart_self 0 _
  · rintro ⟨apart, quotes, blocks⟩
    have joins : Joins .initial .initial cs false 0 none none (keptLexemes cs) := {
      keeps := rfl
      named := named
      related := .refl rfl
      ended := by simp
      start := fun _ => rfl
      operand := by simp [LexState.initial]
      apart := apart
      quotes := quotes
      blocks := blocks }
    rw [← texts_spans 0, ← texts_spans 0]
    exact congrArg _ joins.spans_eq

end Texts

namespace Token

/-- The texts of the tokens but for white space. -/
def visibleTexts (ts : List Token) : List String :=
  (ts.filter (!·.isWhitespace)).map text

theorem isMarker_lexeme (t : Token) : isMarker t.lexeme = t.isContinuation :=
  rfl

theorem map_lexeme_dropContinuations (joined : Bool) (ts : List Token) :
    (dropContinuations joined ts).map lexeme = dropMarkers joined (ts.map lexeme) := by
  induction ts generalizing joined with
  | nil => rfl
  | cons t ts ih =>
    rw [dropContinuations, List.map_cons, dropMarkers, isMarker_lexeme]
    split
    · exact ih true
    · rw [show t.isNewline = (t.lexeme.1 == .newline) from rfl]
      split
      · exact ih false
      · rw [List.map_cons, ih]

theorem toList_concat (ts : List Token) : (concat ts).toList = spelled (ts.map lexeme) := by
  induction ts with
  | nil => rfl
  | cons t ts ih => simp [ih, lexeme]

theorem visible_map_lexeme (ts : List Token) :
    visible (ts.map lexeme) = (ts.filter (!·.isWhitespace)).map lexeme := by
  rw [visible, List.filter_map]
  rfl

theorem toList_visibleTexts (ts : List Token) :
    (visibleTexts ts).map String.toList = (visible (ts.map lexeme)).map Prod.snd := by
  rw [visible_map_lexeme, visibleTexts, List.map_map, List.map_map]
  rfl

end Token

theorem toList_joinContinuedLines (code : String) :
    (joinContinuedLines code).toList = spelled (keptLexemes code.toList) := by
  rw [joinContinuedLines, Token.toList_concat, Token.map_lexeme_dropContinuations,
    Token.map_lexeme_tokenize, keptLexemes]

/-- What makes joining keep the tokens: those of the joined text, against those that are kept. -/
structure StaysApart (kept joined : List Token) : Prop where
  /-- No token but white space reaches over the end of a kept one: no two merge. -/
  apart : Apart (spans 0 (joined.map Token.lexeme)) (ends 0 (kept.map Token.lexeme))
  /-- No string in single quotes comes right behind an operand, but for a lone quote. -/
  quotes : kept.IsChain fun o t => o.isOperand = true → t.kind = .string →
    t.text.toList.head? = some '\'' → t.text = "'"
  /-- No comment over lines comes behind anything but white space in its line. -/
  blocks : (kept.filter (!·.isWhitespace)).IsChain fun o t => t.kind = .comment →
    '\n' ∈ t.text.toList → o.isNewline = true

theorem staysApart_iff (kept joined : List Token) :
    StaysApart kept joined ↔
      Apart (spans 0 (joined.map Token.lexeme)) (ends 0 (kept.map Token.lexeme)) ∧
        (kept.map Token.lexeme).IsChain LoneQuote ∧
        (visible (kept.map Token.lexeme)).IsChain OwnLine := by
  have quote (t : Token) : t.text.toList = ['\''] ↔ t.text = "'" :=
    ⟨fun same => String.toList_injective same, fun same => by rw [same]; rfl⟩
  have newline (o : Token) : o.kind = .newline ↔ o.isNewline = true := by simp [Token.isNewline]
  rw [Token.visible_map_lexeme, List.isChain_map, List.isChain_map]
  simp only [LoneQuote, OwnLine, Token.lexeme, quote, newline]
  exact ⟨fun h => ⟨h.apart, h.quotes, h.blocks⟩, fun h => ⟨h.1, h.2.1, h.2.2⟩⟩

/-- In a text without the keyword `function`, joining continued lines keeps the texts of all tokens
but white space exactly when no two tokens merge, no string comes right behind an operand and no
comment over lines behind other tokens of its line. Then no continuation marker is left. -/
theorem visibleTexts_joinContinuedLines_iff (code : String)
    (plain : ∀ t ∈ tokenize code, t.isKeyword "function" = false) :
    (Token.visibleTexts (tokenize (joinContinuedLines code)) =
        Token.visibleTexts (dropContinuations false (tokenize code)) ↔
      StaysApart (dropContinuations false (tokenize code)) (tokenize (joinContinuedLines code))) ∧
    (Token.visibleTexts (tokenize (joinContinuedLines code)) =
        Token.visibleTexts (dropContinuations false (tokenize code)) →
      ∀ t ∈ tokenize (joinContinuedLines code), t.isContinuation = false) := by
  have kept : (dropContinuations false (tokenize code)).map Token.lexeme = keptLexemes code.toList := by
    rw [Token.map_lexeme_dropContinuations, Token.map_lexeme_tokenize, keptLexemes]
  have joined : (tokenize (joinContinuedLines code)).map Token.lexeme = joinedLexemes code.toList := by
    rw [Token.map_lexeme_tokenize, toList_joinContinuedLines, joinedLexemes]
  have texts : Token.visibleTexts (tokenize (joinContinuedLines code)) =
      Token.visibleTexts (dropContinuations false (tokenize code)) ↔
      (visible (joinedLexemes code.toList)).map Prod.snd =
        (visible (keptLexemes code.toList)).map Prod.snd := by
    rw [← kept, ← joined, ← Token.toList_visibleTexts, ← Token.toList_visibleTexts,
      List.map_inj_right fun _ _ same => String.toList_injective same]
  have named : ∀ x ∈ lexemes .initial code.toList, x.1 = .keyword → x.2 ≠ "function".toList := by
    rw [← Token.map_lexeme_tokenize, List.forall_mem_map]
    intro t member keyword spelled
    have word := plain t member
    rw [Token.isKeyword, Token.is, String.toList_injective spelled] at word
    simp [show t.kind = .keyword from keyword] at word
  constructor
  · rw [texts, texts_joined_iff named, staysApart_iff, kept, joined]
  · intro same t member
    have unbroken := unbroken_of_texts (texts.mp same)
    rw [← joined, List.forall_mem_map] at unbroken
    exact unbroken t member

/-- A continued expression whose parts stay apart. -/
theorem visibleTexts_continued_sum :
    Token.visibleTexts (tokenize (joinContinuedLines "x = a' ...\n + 'b'\n")) =
        ["x", "=", "a", "'", "+", "'b'", "\n"] ∧
      StaysApart (dropContinuations false (tokenize "x = a' ...\n + 'b'\n"))
        (tokenize (joinContinuedLines "x = a' ...\n + 'b'\n")) := by
  refine ⟨by decide +kernel, ?_⟩
  exact (visibleTexts_joinContinuedLines_iff _ (by decide +kernel)).1.mp (by decide +kernel)

/-- Two words merge, a string behind a name is read as its transpose, and a block comment behind a
name ends with its line. -/
theorem visibleTexts_not_kept :
    (Token.visibleTexts (dropContinuations false (tokenize "a...\nb")) = ["a", "b"] ∧
      Token.visibleTexts (tokenize (joinContinuedLines "a...\nb")) = ["ab"]) ∧
    (Token.visibleTexts (dropContinuations false (tokenize "a...\n'b'")) = ["a", "'b'"] ∧
      Token.visibleTexts (tokenize (joinContinuedLines "a...\n'b'")) = ["a", "'", "b", "'"]) ∧
    Token.visibleTexts (dropContinuations false (tokenize "a ...\n%\x7b\nb\n%\x7d")) =
        ["a", "%\x7b\nb\n%\x7d"] ∧
      Token.visibleTexts (tokenize (joinContinuedLines "a ...\n%\x7b\nb\n%\x7d")) =
        ["a", "%\x7b", "\n", "b", "\n", "%\x7d"] := by
  decide +kernel

end MatlabOutline
