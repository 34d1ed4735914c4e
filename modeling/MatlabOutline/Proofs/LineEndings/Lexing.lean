import MatlabOutline.Proofs.LineEndings.BlockComments
import MatlabOutline.Proofs.Lexing.LineEnds

/-!
Lexing does not depend on how lines end. Main statement: with other line ends a text has the same tokens,
written with these line ends, and one more line end behind it is one more token unless the text ends in a
block comment that is not closed (`tokenize_line_endings`).
-/

namespace MatlabOutline

/-- The step over the text as it is written. -/
def LexStep.rendered (w : Rendition) (s : LexStep) : LexStep :=
  { s with split := s.split.rendered w }

namespace Lexer

open Scan

variable {w : Rendition} {r : List Char}

def NeutralAt (w : Rendition) (f : List Char → LexStep) (r : List Char) : Prop :=
  f (w.text r) = (f r).rendered w

theorem neutralAt_scan {f : List Char → Split} (neutral : Neutral f) (plain : '\r' ∉ r) (kind : TokenKind)
    (next : LexState) : NeutralAt w (fun r => ⟨kind, f r, next⟩) r := by
  rw [NeutralAt, neutral w r plain]
  rfl

theorem neutral_nothing : Neutral fun r => ⟨[], r⟩ :=
  fun _ _ _ => rfl

theorem neutral_optional {second : Option Char} (feed : second ≠ some '\n') (carriage : second ≠ some '\r') :
    Neutral (optional second) := by
  have stops : StopsAtLineEnd (optional second) := by
    refine stops_of_cons rfl fun c r ended => ?_
    rcases atLineEnd_cons_iff.mp ended with rfl | ⟨rfl, _⟩
    · rw [optional, if_neg feed]
    · rw [optional, if_neg carriage]
  refine stops.neutral fun w c r line _ _ => ?_
  by_cases taken : second = some c
  · refine .push (g := fun r => ⟨[], r⟩) line ?_ ?_ rfl <;> rw [optional, if_pos taken] <;> rfl
  · refine .stop (by rw [optional, if_neg taken]) ?_
    rw [w.text_cons line, optional, if_neg taken]

theorem operatorSecond_ne_carriage (c : Char) : operatorSecond c ≠ some '\r' := by
  fun_cases operatorSecond c <;> simp

theorem neutralAt_dot (st : LexState) (plain : '\r' ∉ r) : NeutralAt w (dot st) r := by
  have front := w.head?_text_any (p := Char.isDigit) (by decide) (by decide) r
  by_cases digit : r.head?.any Char.isDigit = true
  · rw [NeutralAt, dot_number digit, dot_number (front.trans digit)]
    exact neutralAt_scan (neutral_numberRest '.') plain _ _
  rw [Bool.not_eq_true] at digit
  by_cases free : takesPoint r = true
  · rcases r with _ | ⟨c, r⟩
    · simp [takesPoint] at free
    rw [List.mem_cons, not_or] at plain
    simp only [takesPoint, Bool.or_eq_true, Bool.and_eq_true, beq_iff_eq] at free
    rcases free with mark | ⟨rfl, second⟩
    · have cases : c = '*' ∨ c = '/' ∨ c = '\\' ∨ c = '^' ∨ c = '\'' := by simpa using mark
      rcases cases with rfl | rfl | rfl | rfl | rfl <;> rw [NeutralAt, w.text_cons (by decide)] <;> rfl
    · rcases r with _ | ⟨d, r⟩
      · simp at second
      obtain rfl : d = '.' := by simpa using second
      have behind : '\r' ∉ r := fun member => plain.2 (List.mem_cons_of_mem _ member)
      have body := neutral_lineBody w r behind
      rw [NeutralAt, w.text_cons (by decide), w.text_cons (by decide), dot_marker, dot_marker, body]
      simp [LexStep.rendered, Split.rendered, Split.push, LineEnding.write_cons]
  · rw [Bool.not_eq_true] at free
    rw [NeutralAt, dot_punctuation free digit, dot_punctuation (by rw [takesPoint_text, free]) (front.trans digit)]
    rfl

theorem taken_ident (w : Rendition) (r : List Char) :
    w.ending.write (run isIdentRest r).taken = (run isIdentRest r).taken :=
  w.ending.write_of_not_mem (not_mem_run (by decide) r)

theorem neutralAt_word (st : LexState) (c : Char) (plain : '\r' ∉ r) : NeutralAt w (word st c) r := by
  have ident := neutral_ident w r plain
  by_cases field : st.afterDot = true
  · rw [NeutralAt, word_field field, word_field field]
    exact neutralAt_scan neutral_ident plain _ _
  rw [Bool.not_eq_true] at field
  cases part : st.signature with
  | name =>
    rw [NeutralAt, word_declared field part, word_declared field part]
    exact neutralAt_scan (neutral_ident.andThen neutral_dottedRest (run_whole _)) plain _ _
  | outputs =>
    rw [NeutralAt, word_output field part, word_output field part]
    exact neutralAt_scan neutral_ident plain _ _
  | none =>
    have rest := Split.not_mem_rest (run_whole isIdentRest r) plain
    rw [NeutralAt, word_plain field part, word_plain field part, ident]
    simp only [LexStep.rendered, Split.rendered, taken_ident, wordKind, endsBlockWord_text rest,
      signatureAfter, signatureHasOutputs_text]

theorem neutralAt_code (st : LexState) {c : Char} (line : c ≠ '\n') (carriage : c ≠ '\r')
    (plain : '\r' ∉ r) : NeutralAt w (code st c) r := by
  have nothing (kind : TokenKind) (next : LexState) : NeutralAt w (fun r => ⟨kind, ⟨[], r⟩, next⟩) r :=
    neutralAt_scan neutral_nothing plain kind next
  unfold code
  split
  · exact neutralAt_dot st plain
  split
  · exact nothing _ _
  split
  · exact neutralAt_scan (neutral_stringBody line carriage) plain _ _
  split
  · exact neutralAt_scan (neutral_numberRest c) plain _ _
  split
  · exact neutralAt_word st c plain
  split
  · exact nothing _ _
  split
  · exact nothing _ _
  split
  · exact neutralAt_scan (neutral_optional (operatorSecond_ne c) (operatorSecond_ne_carriage c)) plain _ _
  · exact nothing _ _

/-- The lexeme is a comment at the start of a line that leaves a block open. -/
def isOpenComment (start : Bool) (x : TokenKind × List Char) : Bool :=
  start && x.1 == .comment && depthOver 0 x.2 != 0

theorem depthAfter_opener {r : List Char} (opens : opensBlockComment r = true) :
    depthAfter 0 ('%' :: (lineBody r).taken) = 1 := by
  rw [opensBlockComment_eq, Bool.and_eq_true, beq_iff_eq] at opens
  rw [depthAfter, if_pos ((Text.trim_opener_iff _).mpr opens)]

theorem depthOver_remark (not : opensBlockComment r = false) :
    depthOver 0 ('%' :: (lineBody r).taken) = 0 := by
  have within : '\n' ∉ '%' :: (lineBody r).taken := by simp [feed_not_mem_lineBody]
  have line := depthOver_append within (.inl rfl) 0
  rw [List.append_nil, depthOver_nil] at line
  rw [line, depthAfter, if_neg]
  · split <;> rfl
  · rw [Text.trim_opener_iff, ← beq_iff_eq, ← Bool.and_eq_true, ← opensBlockComment_eq, not]
    simp

theorem depthOver_blockComment (opens : opensBlockComment r = true) (plain : '\r' ∉ r) :
    depthOver 0 ('%' :: (blockRest r).taken) = depthOver 1 (blockLines 1 (lineBody r).rest).taken := by
  have within : '\n' ∉ '%' :: (lineBody r).taken := by simp [feed_not_mem_lineBody]
  have below := head_taken_blockLines 1 (head_rest_lineBody plain)
  rw [blockRest, Split.andThen, Split.prepend, ← List.cons_append, depthOver_append within below,
    depthAfter_opener opens]

/-- What a step reads is the same however the text is written, but for a comment that is not closed,
which takes all of it. -/
theorem comment_text (w : Rendition) (st : LexState) (plain : '\r' ∉ r) :
    if isOpenComment st.lineStart ((comment st r).kind, '%' :: (comment st r).split.taken) then
      (comment st r).split.rest = [] ∧ comment st (w.text r) = ⟨.comment, ⟨w.text r, []⟩, st.plain⟩
    else NeutralAt w (comment st) r := by
  have opens := opensBlockComment_text (w := w) plain
  by_cases block : (st.lineStart && opensBlockComment r) = true
  · have here (s : List Char) (same : opensBlockComment s = opensBlockComment r) :
        comment st s = ⟨.comment, blockRest s, st.plain⟩ := by rw [comment, same, if_pos block]
    rw [Bool.and_eq_true] at block
    have depth := depthOver_blockComment block.2 plain
    rw [NeutralAt, here r rfl, here _ opens]
    simp only [isOpenComment, block.1, depth, beq_self_eq_true, Bool.true_and, bne_iff_ne]
    split
    · next unclosed =>
      have here := blockRest_text_of_open (w := ⟨.feed, false⟩) plain unclosed
      simp only [Rendition.text, Rendition.tail, LineEnding.write_feed, Bool.false_eq_true, if_false,
        List.append_nil] at here
      rw [here, blockRest_text_of_open plain unclosed]
      exact ⟨rfl, rfl⟩
    · next closed =>
      rw [neutralAt_blockRest plain (not_not.mp closed)]
      rfl
  · have here (s : List Char) (same : opensBlockComment s = opensBlockComment r) :
        comment st s = ⟨.comment, lineBody s, st.plain⟩ := by rw [comment, same, if_neg block]
    have shut : isOpenComment st.lineStart (.comment, '%' :: (lineBody r).taken) = false := by
      by_cases start : st.lineStart = true
      · have not : opensBlockComment r = false := by simpa [start] using block
        simp [isOpenComment, depthOver_remark not]
      · simp [isOpenComment, start]
    rw [NeutralAt, here r rfl, here _ opens, shut, if_neg (by simp)]
    exact neutralAt_scan neutral_lineBody plain _ _

theorem eq_point_of_comment {st : LexState} {c : Char} {r : List Char} (remark : (code st c r).kind = .comment) :
    c = '.' := by
  by_contra other
  have point : ¬ (c == '.') = true := by simpa using other
  have word := kind_word st c r
  rw [code, if_neg point] at remark
  repeat' split at remark
  all_goals simp_all [operator]

/-- A continuation marker opens no block comment. -/
theorem isOpenComment_code (st : LexState) (start : Bool) (c : Char) (r : List Char) :
    isOpenComment start ((code st c r).kind, c :: (code st c r).split.taken) = false := by
  by_cases remark : (code st c r).kind = .comment
  · obtain rfl := eq_point_of_comment remark
    have within : '\n' ∉ '.' :: (code st '.' r).split.taken := by
      have taken : '\n' ∉ (code st '.' r).split.taken := feed_not_mem_dot st r
      simp [taken]
    have depth : depthOver 0 ('.' :: (code st '.' r).split.taken) = 0 := by
      rw [depthOver, Text.splitAt_of_not_mem within]
      simp [depthAfter, Text.trim_cons (c := '.') (by decide)]
    simp [isOpenComment, depth]
  · simp [isOpenComment, remark]

theorem step_eq (st : LexState) (c : Char) (r : List Char) :
    step st c r =
      if c == '\n' then ⟨.newline, ⟨[], r⟩, .initial⟩
      else if c == '\r' && r.head? == some '\n' then ⟨.newline, ⟨['\n'], r.tail⟩, .initial⟩
      else if isBlank c then ⟨.whitespace, spaces r, st.blank⟩
      else if c == '%' then comment st r
      else code st c r :=
  rfl

theorem step_text (w : Rendition) (st : LexState) {c : Char} (line : c ≠ '\n') (carriage : c ≠ '\r')
    (plain : '\r' ∉ r) :
    if isOpenComment st.lineStart ((step st c r).kind, c :: (step st c r).split.taken) then
      (step st c r).split.rest = [] ∧ step st c (w.text r) = ⟨.comment, ⟨w.text r, []⟩, st.plain⟩
    else NeutralAt w (step st c) r := by
  have feed : ¬ (c == '\n') = true := by simp [line]
  have pair (s : List Char) : ¬ (c == '\r' && s.head? == some '\n') = true := by simp [carriage]
  by_cases blank : isBlank c = true
  · have here (s : List Char) : step st c s = ⟨.whitespace, spaces s, st.blank⟩ := by
      rw [step_eq, if_neg feed, if_neg (pair s), if_pos blank]
    rw [NeutralAt, here, here, if_neg (by simp [isOpenComment])]
    exact neutralAt_scan neutral_spaces plain _ _
  by_cases remark : c = '%'
  · subst remark
    have here (s : List Char) : step st '%' s = comment st s := rfl
    rw [NeutralAt, here, here]
    exact comment_text w st plain
  have here (s : List Char) : step st c s = code st c s := by
    rw [step_eq, if_neg feed, if_neg (pair s), if_neg blank, if_neg (by simpa using remark)]
  rw [NeutralAt, here, here, isOpenComment_code, if_neg (by simp)]
  exact neutralAt_code st line carriage plain

/-- Whether only white space stands on a line after a lexeme of the kind. -/
def startsLineAfter (start : Bool) (kind : TokenKind) : Bool :=
  kind == .newline || start && kind == .whitespace

def TracksStart (start : Bool) (s : LexStep) : Prop :=
  s.next.lineStart = startsLineAfter start s.kind

theorem tracksStart_dot (st : LexState) (r : List Char) : TracksStart st.lineStart (dot st r) := by
  fun_cases dot st r <;> simp [TracksStart, startsLineAfter, LexState.plain, LexState.operand]

theorem tracksStart_word (st : LexState) (c : Char) (r : List Char) :
    TracksStart st.lineStart (word st c r) := by
  have kind := kind_word st c r
  have within : (word st c r).next.lineStart = false := by
    fun_cases word st c r <;> rfl
  rw [TracksStart, within]
  simp only [List.mem_cons, List.not_mem_nil, or_false] at kind
  rcases kind with kind | kind | kind <;> simp [startsLineAfter, kind]

theorem tracksStart_code (st : LexState) (c : Char) (r : List Char) :
    TracksStart st.lineStart (code st c r) := by
  have other {kind : TokenKind} {s : Split} {next : LexState} (within : next.lineStart = false)
      (line : kind ≠ .newline) (blank : kind ≠ .whitespace) : TracksStart st.lineStart ⟨kind, s, next⟩ := by
    simp [TracksStart, startsLineAfter, within, line, blank]
  unfold code
  split
  · exact tracksStart_dot st r
  split
  · exact other rfl (by simp) (by simp)
  split
  · exact other rfl (by simp) (by simp)
  split
  · exact other rfl (by simp) (by simp)
  split
  · exact tracksStart_word st c r
  repeat' split
  all_goals exact other rfl (by simp) (by simp)

theorem tracksStart_step (st : LexState) (c : Char) (r : List Char) :
    TracksStart st.lineStart (step st c r) := by
  rw [step_eq]
  split
  · rfl
  split
  · rfl
  split
  · simp [TracksStart, startsLineAfter, LexState.blank]
  split
  · fun_cases comment st r <;> simp [TracksStart, startsLineAfter, LexState.plain]
  · exact tracksStart_code st c r

/-- The lexemes end in a block comment that is not closed; `start` says that only white space stands
before them on their line. -/
def endsOpen (start : Bool) : List (TokenKind × List Char) → Bool
  | [] => false
  | [x] => isOpenComment start x
  | x :: y :: r => endsOpen (startsLineAfter start x.1) (y :: r)

theorem endsOpen_cons {start : Bool} {x : TokenKind × List Char} (shut : isOpenComment start x = false)
    (xs : List (TokenKind × List Char)) : endsOpen start (x :: xs) = endsOpen (startsLineAfter start x.1) xs := by
  rcases xs with _ | ⟨y, xs⟩
  · exact shut
  · rfl

theorem step_line (w : Rendition) (st : LexState) (r : List Char) :
    lexemes st (w.text ('\n' :: r)) = (.newline, w.ending.chars) :: lexemes .initial (w.text r) := by
  rw [w.text_line]
  cases w.ending
  · exact lexemes_of_step rfl
  · exact lexemes_of_step rfl

/-- The lexemes of a text, with their line ends written in another way. -/
def rewritten (e : LineEnding) (xs : List (TokenKind × List Char)) : List (TokenKind × List Char) :=
  xs.map fun x => (x.1, e.write x.2)

def extendLast (tail : List Char) : List (TokenKind × List Char) → List (TokenKind × List Char)
  | [] => []
  | [x] => [(x.1, x.2 ++ tail)]
  | x :: y :: r => x :: extendLast tail (y :: r)

@[simp] theorem length_extendLast (tail : List Char) (xs : List (TokenKind × List Char)) :
    (extendLast tail xs).length = xs.length := by
  fun_induction extendLast tail xs with
  | case1 => rfl
  | case2 => rfl
  | case3 x y r ih => simp [ih]

theorem extendLast_nil (xs : List (TokenKind × List Char)) : extendLast [] xs = xs := by
  fun_induction extendLast [] xs with
  | case1 => rfl
  | case2 => simp
  | case3 x y r ih => rw [ih]

/-- The lexemes of a text as it is written, where `xs` are those of its lines: one more line end is a
lexeme of its own, but in a block comment that is not closed. -/
def finished (w : Rendition) (unclosed : Bool) (xs : List (TokenKind × List Char)) :
    List (TokenKind × List Char) :=
  if unclosed then extendLast w.tail xs else xs ++ if w.closed then [(.newline, w.ending.chars)] else []

theorem finished_cons (w : Rendition) {start : Bool} (x : TokenKind × List Char)
    (xs : List (TokenKind × List Char)) :
    finished w (endsOpen start xs) (x :: rewritten w.ending xs) =
      x :: finished w (endsOpen start xs) (rewritten w.ending xs) := by
  rcases xs with _ | ⟨y, xs⟩
  · simp [endsOpen, finished, rewritten]
  · rw [finished, finished]
    split <;> rfl

theorem lexemes_tail (w : Rendition) (st : LexState) : lexemes st w.tail = finished w false [] := by
  rcases w with ⟨ending, _ | _⟩
  · exact lexemes.eq_1 st
  · have line := step_line ⟨ending, false⟩ st []
    simpa [Rendition.tail, Rendition.text, finished, lexemes.eq_1] using line

/-- A text has the same lexemes however it is written. -/
theorem lexemes_text (w : Rendition) (st : LexState) {cs : List Char} (plain : '\r' ∉ cs) :
    lexemes st (w.text cs) =
      finished w (endsOpen st.lineStart (lexemes st cs)) (rewritten w.ending (lexemes st cs)) := by
  fun_induction lexemes st cs with
  | case1 st => exact lexemes_tail w st
  | case2 st c r s ih =>
    rw [List.mem_cons, not_or] at plain
    have rest : '\r' ∉ s.split.rest := Split.not_mem_rest (step_whole st c r) plain.2
    by_cases line : c = '\n'
    · subst line
      have shut : isOpenComment st.lineStart (s.kind, '\n' :: s.split.taken) = false := by
        simp [isOpenComment, s, step]
      rw [step_line, endsOpen_cons shut, rewritten, List.map_cons, ← rewritten, ← tracksStart_step,
        finished_cons, ← ih rest]
      simp [s, step]
    have read := step_text w st line (Ne.symm plain.1) plain.2
    rw [w.text_cons line, lexemes]
    split at read
    · next unclosed =>
      have last : s.split.rest = [] := read.1
      have taken : s.split.taken = r := by
        have whole : s.split.taken ++ s.split.rest = r := step_whole st c r
        rwa [last, List.append_nil] at whole
      have kind : s.kind = .comment := by
        simp only [isOpenComment, Bool.and_eq_true, beq_iff_eq] at unclosed
        exact unclosed.1.2
      have ended : endsOpen st.lineStart [(s.kind, c :: s.split.taken)] = true := unclosed
      rw [last, lexemes, ended, read.2, taken, kind]
      simp [lexemes, finished, rewritten, extendLast, Rendition.text, LineEnding.write_cons _ line]
    · next closed =>
      have shut : isOpenComment st.lineStart (s.kind, c :: s.split.taken) = false := by simpa using closed
      rw [endsOpen_cons shut, rewritten, List.map_cons, ← rewritten, ← tracksStart_step, finished_cons,
        ← ih rest, read]
      simp [LexStep.rendered, Split.rendered, s, LineEnding.write_cons _ line]

end Lexer

/-- The text with each line feed written as this line end. -/
def LineEnding.rewrite (e : LineEnding) (s : String) : String :=
  String.ofList (e.write s.toList)

namespace Token

/-- The token of the text that ends its lines in this way. -/
def rewrite (e : LineEnding) (t : Token) : Token :=
  { t with text := e.rewrite t.text }

theorem place_rewritten (e : LineEnding) (line : Nat) (xs : List (TokenKind × List Char)) :
    place line (Lexer.rewritten e xs) = (place line xs).map (rewrite e) := by
  induction xs generalizing line with
  | nil => rfl
  | cons x xs ih =>
    have below := ih (line + Text.feeds x.2)
    rw [Lexer.rewritten] at below
    simp [Lexer.rewritten, place, rewrite, LineEnding.rewrite, below]

theorem length_place (line : Nat) (xs : List (TokenKind × List Char)) : (place line xs).length = xs.length := by
  have kinds := congrArg List.length (map_kind_place line xs)
  rwa [List.length_map, List.length_map] at kinds

end Token

/-- The tokens of a text end in a block comment that is not closed: a comment at the start of a line, the
lines of which open more blocks than they close. -/
def endsUnclosed (ts : List Token) : Bool :=
  Lexer.endsOpen true (ts.map fun t => (t.kind, t.text.toList))

theorem endsUnclosed_tokenize (s : String) :
    endsUnclosed (tokenize s) = Lexer.endsOpen true (Lexer.lexemes .initial s.toList) :=
  congrArg _ (Token.map_lexeme_tokenize s)

theorem tokenize_rewrite (e : LineEnding) {s : String} (plain : '\r' ∉ s.toList) :
    tokenize (e.rewrite s) = (tokenize s).map (Token.rewrite e) := by
  have same := Lexer.lexemes_text ⟨e, false⟩ .initial plain
  have whole (xs : List (TokenKind × List Char)) (unclosed : Bool) :
      Lexer.finished ⟨e, false⟩ unclosed xs = xs := by
    cases unclosed <;> simp [Lexer.finished, Rendition.tail, Lexer.extendLast_nil]
  rw [whole, Rendition.text, Rendition.tail, if_neg (by simp), List.append_nil] at same
  rw [tokenize, LineEnding.rewrite, String.toList_ofList, same, Token.place_rewritten, tokenize]

/-- How lines end makes no difference to tokens but in their texts, and a further line end is a token of
its own exactly when no block comment runs into it. -/
theorem tokenize_line_endings {s : String} (plain : '\r' ∉ s.toList) :
    tokenize (LineEnding.carriage.rewrite s) = (tokenize s).map (Token.rewrite .carriage) ∧
      (tokenize (s ++ "\n") = tokenize s ++ [⟨.newline, "\n", 1 + Text.feeds s.toList⟩] ↔
        endsUnclosed (tokenize s) = false) := by
  refine ⟨tokenize_rewrite .carriage plain, ?_⟩
  have same := Lexer.lexemes_text ⟨.feed, true⟩ .initial plain
  have text : (Rendition.mk .feed true).text s.toList = (s ++ "\n").toList := by
    simp [Rendition.text, Rendition.tail, LineEnding.chars]
  have kept (xs : List (TokenKind × List Char)) : Lexer.rewritten .feed xs = xs := by
    simp [Lexer.rewritten]
  rw [text, kept, show LexState.initial.lineStart = true from rfl] at same
  rw [endsUnclosed_tokenize, tokenize, same]
  cases unclosed : Lexer.endsOpen true (Lexer.lexemes .initial s.toList) with
  | false =>
    rw [Lexer.finished, if_neg (by simp), if_pos rfl, Token.place_append, Lexer.lexemes_flatten]
    exact iff_of_true rfl rfl
  | true =>
    refine iff_of_false (fun equal => ?_) (by simp)
    have lengths := congrArg List.length equal
    rw [Lexer.finished, if_pos rfl, tokenize, List.length_append, Token.length_place, Token.length_place,
      Lexer.length_extendLast] at lengths
    simp at lengths

/-- A transposed name, a string that is not closed and a nested block comment that is. -/
theorem tokenize_line_endings_closed_block :
    '\r' ∉ "x = y';\nz = 'w\n%\x7b\n%\x7b\n%\x7d\n%\x7d".toList ∧
      tokenize (LineEnding.carriage.rewrite "x = y';\nz = 'w\n%\x7b\n%\x7b\n%\x7d\n%\x7d") =
        (tokenize "x = y';\nz = 'w\n%\x7b\n%\x7b\n%\x7d\n%\x7d").map (Token.rewrite .carriage) ∧
      tokenize ("x = y';\nz = 'w\n%\x7b\n%\x7b\n%\x7d\n%\x7d" ++ "\n") =
        tokenize "x = y';\nz = 'w\n%\x7b\n%\x7b\n%\x7d\n%\x7d" ++ [⟨.newline, "\n", 6⟩] := by
  have plain : '\r' ∉ "x = y';\nz = 'w\n%\x7b\n%\x7b\n%\x7d\n%\x7d".toList := by decide +kernel
  have lines : Text.feeds "x = y';\nz = 'w\n%\x7b\n%\x7b\n%\x7d\n%\x7d".toList = 5 := by decide +kernel
  have endings := tokenize_line_endings plain
  rw [lines] at endings
  exact ⟨plain, endings.1, endings.2.mpr (by decide +kernel)⟩

end MatlabOutline
