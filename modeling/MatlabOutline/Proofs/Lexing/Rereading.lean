import MatlabOutline.Proofs.Lexing.OneLine
import MatlabOutline.Proofs.Lexing.Reach
import MatlabOutline.Proofs.Lexing.Spans
import MatlabOutline.Proofs.Lexing.StableStep

/-!
Lexemes that are read again with another text before and behind them. Main statement: a lexeme is
read again whole (`Lexer.agrees_step`) unless another lexeme takes a part of it, a quote meets an
operand, or a block comment does not begin its line.
-/

namespace MatlabOutline

namespace Scan

theorem atBreak_lineBody (r : List Char) : atBreak (lineBody r).rest = true := by
  induction r with
  | nil => rfl
  | cons c r ih =>
    rw [lineBody_cons]
    split
    · next ended => simp [atBreak, ended]
    · exact ih

theorem atBreak_blockLines (depth : Nat) {r : List Char} (ended : atBreak r = true) :
    atBreak (blockLines depth r).rest = true := by
  fun_induction blockLines depth r with
  | case1 => exact ended
  | case2 => exact atBreak_lineBody _
  | case3 depth r ending _ line inner _ ih => exact ih (atBreak_lineBody _)

theorem atBreak_blockRest (r : List Char) : atBreak (blockRest r).rest = true :=
  atBreak_blockLines 1 (atBreak_lineBody r)

/-- A block comment of one line ends where the line does. -/
theorem blockRest_of_no_feed {r : List Char} (none : '\n' ∉ (blockRest r).taken) :
    blockRest r = lineBody r := by
  have further : '\n' ∉ (blockLines 1 (lineBody r).rest).taken := by
    simp only [blockRest, Split.andThen, Split.prepend, List.mem_append, not_or] at none
    exact none.2
  have stop : blockLines 1 (lineBody r).rest = ⟨[], (lineBody r).rest⟩ := by
    apply blockLines_stop
    cases ended : atLineEnd (lineBody r).rest with
    | false => rfl
    | true =>
      exfalso
      apply further
      rw [blockLines.eq_def]
      rcases rest : (lineBody r).rest with _ | ⟨c, s⟩
      · simp [rest, atLineEnd] at ended
      · rw [rest] at ended
        rcases atLineEnd_cons_iff.mp ended with rfl | ⟨rfl, t, rfl⟩
        all_goals
          simp only [lineEnd, List.isEmpty_cons, Bool.false_eq_true, if_false, Split.prepend]
          split <;> simp
  simp [blockRest, Split.andThen, Split.prepend, stop]

end Scan

namespace Lexer

open Scan

/-- A lexeme that ends an operand, which a quote right behind it transposes. -/
def isOperand (x : TokenKind × List Char) : Bool :=
  match x.1 with
  | .name | .nameFunction | .keyword | .number => true
  | .punctuation => [[')'], [']'], ['\x7d'], ['.']].contains x.2
  | .operator => [['\''], ['.', '\'']].contains x.2
  | _ => false

/-- The states of a lexeme in two texts. In the second text it can follow an operand or a field
access that a line end divides from it in the first one, and only there it can stand within its
line. No signature is being read. -/
structure Related (st sj : LexState) : Prop where
  plain : st.signature = .none
  plain' : sj.signature = .none
  lineStart : sj.lineStart = true → st.lineStart = true
  operand : st.afterOperand = true → sj.afterOperand = true
  field : st.afterDot = true → sj.afterDot = true

namespace Related

variable {st sj : LexState}

theorem initial (related : Related st sj) : Related .initial sj :=
  ⟨rfl, related.plain', fun _ => rfl, by simp [LexState.initial], by simp [LexState.initial]⟩

theorem refl (plain : st.signature = .none) : Related st st :=
  ⟨plain, plain, id, id, id⟩

theorem after_blank (related : Related st sj) : Related st.blank sj.blank :=
  ⟨related.plain, related.plain', related.lineStart, by simp [LexState.blank], by simp [LexState.blank]⟩

theorem after_plain (related : Related st sj) : Related st.plain sj.plain :=
  ⟨related.plain, related.plain', id, id, id⟩

theorem after_operand (related : Related st sj) : Related st.operand sj.operand :=
  ⟨related.plain, related.plain', id, id, id⟩

theorem after_point (related : Related st sj) :
    Related { st.operand with afterDot := true } { sj.operand with afterDot := true } :=
  ⟨related.plain, related.plain', id, id, id⟩

end Related

/-- The step `t` reads the lexeme that `c` begins as `s` does, with `y` behind it. -/
structure Agrees (c : Char) (s t : LexStep) (y : List Char) : Prop where
  split : t.split = ⟨s.split.taken, y⟩
  solid : t.kind ≠ .whitespace
  related : Related s.next t.next
  operand : t.next.afterOperand = true → y.head? = some '\'' →
    isOperand (s.kind, c :: s.split.taken) = true

theorem step_code {c : Char} (blank : isBlank c = false) (remark : c ≠ '%') (st : LexState)
    (r : List Char) : step st c r = code st c r := by
  have feed : (c == '\n') = false := by
    rw [beq_eq_false_iff_ne]
    rintro rfl
    exact absurd blank (by decide)
  have carriage : (c == '\r') = false := by
    rw [beq_eq_false_iff_ne]
    rintro rfl
    exact absurd blank (by decide)
  have mark : (c == '%') = false := beq_eq_false_iff_ne.mpr remark
  rw [step, feed, carriage, mark]
  simp only [blank, Bool.false_and, Bool.false_eq_true, if_false]
  rfl

theorem step_point (st : LexState) (r : List Char) : step st '.' r = dot st r := by
  rw [step_code (by decide) (by decide)]
  rfl

theorem step_transpose {st : LexState} (after : st.afterOperand = true) (r : List Char) :
    step st '\'' r = ⟨.operator, ⟨[], r⟩, st.operand⟩ := by
  rw [step_code (by decide) (by decide)]
  simp [code, after]

theorem step_string {st : LexState} {c : Char} (mark : c = '\'' ∨ c = '"')
    (free : ¬ (c = '\'' ∧ st.afterOperand = true)) (r : List Char) :
    step st c r = ⟨.string, stringBody c r, st.plain⟩ := by
  have blank : isBlank c = false := by rcases mark with rfl | rfl <;> decide
  have remark : c ≠ '%' := by rcases mark with rfl | rfl <;> decide
  rw [step_code blank remark]
  rcases mark with rfl | rfl <;> simp_all [code]

theorem step_of_digit {c : Char} (digit : c.isDigit = true) (st : LexState) (r : List Char) :
    step st c r = ⟨.number, numberRest c r, st.operand⟩ := by
  have other (d : Char) (symbol : d.isDigit = false) : c ≠ d := by
    rintro rfl
    simp [digit] at symbol
  have blank : isBlank c = false := by
    apply not_isBlank_of_isIdentRest
    simp [isIdentRest, Char.isAlphanum, digit]
  rw [step_code blank (other '%' (by decide))]
  simp [code, other '.' (by decide), other '\'' (by decide), other '"' (by decide), digit]

section Point

variable {st : LexState} {r : List Char}

theorem dot_symbol {d : Char} (symbol : "*/\\^'".toList.contains d = true) (st : LexState)
    (r : List Char) :
    dot st (d :: r) = ⟨.operator, ⟨[d], r⟩, if d = '\'' then st.operand else st.plain⟩ := by
  have cases : d = '*' ∨ d = '/' ∨ d = '\\' ∨ d = '^' ∨ d = '\'' := by simpa using symbol
  rcases cases with rfl | rfl | rfl | rfl | rfl <;> rfl

/-- An operator or a continuation marker goes on behind its point. -/
theorem takesPoint_cases (taken : takesPoint r = true) :
    (∃ d s, r = d :: s ∧ "*/\\^'".toList.contains d = true) ∨ ∃ s, r = '.' :: '.' :: s := by
  rcases r with _ | ⟨d, s⟩
  · simp [takesPoint] at taken
  rw [takesPoint, Bool.or_eq_true, Bool.and_eq_true, beq_iff_eq, beq_iff_eq] at taken
  rcases taken with symbol | ⟨rfl, second⟩
  · exact .inl ⟨d, s, rfl, symbol⟩
  · rcases s with _ | ⟨e, s⟩
    · simp at second
    · obtain rfl : e = '.' := by simpa using second
      exact .inr ⟨s, rfl⟩

theorem dot_takes (taken : takesPoint r = true) : (dot st r).split.taken ≠ [] := by
  rcases takesPoint_cases taken with ⟨d, s, rfl, symbol⟩ | ⟨s, rfl⟩
  · rw [dot_symbol symbol]
    simp
  · rw [dot_marker]
    simp [Split.push]

theorem dot_ne_space (st : LexState) (r : List Char) : (dot st r).kind ≠ .whitespace := by
  have kinds := kind_dot st r
  intro space
  simp [space] at kinds

theorem head_numberRest (digit : r.head?.any Char.isDigit = true) :
    (numberRest '.' r).taken.head?.any Char.isDigit = true := by
  rcases r with _ | ⟨d, r⟩
  · simp at digit
  have first : d.isDigit = true := by simpa using digit
  simp [numberRest_point, Split.andThen, Split.prepend, digits, run, first]

/-- A point that takes nothing stands alone. -/
theorem dot_of_alone (alone : (dot st r).split.taken = []) :
    dot st r = ⟨.punctuation, ⟨[], r⟩, { st.operand with afterDot := true }⟩ := by
  cases digit : r.head?.any Char.isDigit with
  | true =>
    have head := head_numberRest digit
    have none : (numberRest '.' r).taken = [] := by rwa [dot_number digit] at alone
    simp [none] at head
  | false =>
    apply dot_punctuation _ digit
    cases free : takesPoint r with
    | false => rfl
    | true => exact absurd alone (dot_takes free)

end Point

/-- From place `n` on no lexeme but white space reaches over the end of `c :: taken` into `y`. -/
def Uncrossed (n : Nat) (st : LexState) (c : Char) (taken y : List Char) : Prop :=
  Apart (spans n (lexemes st (c :: (taken ++ y)))) [n + (taken.length + 1)]

section Whole

variable {st : LexState} {c : Char} {taken y : List Char} {n : Nat}

/-- A step that reads at least the lexeme reads just it, if it takes no part of the next one. -/
theorem split_of_reaches (solid : (step st c (taken ++ y)).kind ≠ .whitespace)
    (reach : taken <+: (step st c (taken ++ y)).split.taken)
    (apart : Uncrossed n st c taken y) :
    (step st c (taken ++ y)).split = ⟨taken, y⟩ := by
  have whole := step_whole st c (taken ++ y)
  have member : (n, c :: (step st c (taken ++ y)).split.taken) ∈
      spans n (lexemes st (c :: (taken ++ y))) := by
    rw [lexemes, spans_solid solid]
    exact List.mem_cons_self
  have bound := apart _ member _ (List.mem_singleton_self _)
  simp only [List.length_cons] at bound
  have same : taken = (step st c (taken ++ y)).split.taken :=
    reach.eq_of_length_le (by omega)
  rw [Split.whole, ← same, List.append_cancel_left_eq] at whole
  generalize (step st c (taken ++ y)).split = split at same whole
  rcases split with ⟨first, rest⟩
  simp only at same whole
  rw [same, whole]

/-- What a number loses begins a lexeme of more than one character. -/
theorem step_of_lost {mark : Char} (plain : st.signature = .none) (lost : Lost mark y) :
    (step st mark y).kind ≠ .whitespace ∧ (step st mark y).split.taken ≠ [] := by
  rcases lost with ⟨rfl, taken⟩ | ⟨letter, longer⟩
  · rw [step_point]
    exact ⟨dot_ne_space st y, dot_takes taken⟩
  · have start : isIdentStart mark = true := by rcases letter with rfl | rfl <;> decide
    have here : step st mark y = word st mark y := by
      rcases letter with rfl | rfl
      all_goals
        rw [step_code (by decide) (by decide)]
        simp [code, start]
    rw [here]
    have filled : (run isIdentRest y).taken ≠ [] := by
      rcases y with _ | ⟨d, y⟩
      · simp at longer
      · have ident : isIdentRest d = true := by simpa using longer
        simp [run, ident]
    constructor
    · have kinds := kind_word st mark y
      intro space
      simp [space] at kinds
    · cases field : st.afterDot with
      | true => rwa [word_field field]
      | false => rwa [word_plain field plain]

/-- A number that is read again loses nothing, if no lexeme takes a part of it. -/
theorem split_of_keeps {r : List Char} {f : List Char → Split} {kind : TokenKind}
    (kept : Keeps f r y) (plain : st.signature = .none) (solid : kind ≠ .whitespace)
    (here : step st c ((f r).taken ++ y) = ⟨kind, f ((f r).taken ++ y), st.operand⟩)
    (apart : Uncrossed n st c (f r).taken y) :
    f ((f r).taken ++ y) = ⟨(f r).taken, y⟩ := by
  rcases kept with reach | ⟨p, mark, lost, last, split⟩
  · have same := split_of_reaches (by rwa [here]) (by rw [here]; exact reach) apart
    rw [here] at same
    exact same
  · exfalso
    obtain ⟨visible, longer⟩ : (step st.operand mark y).kind ≠ .whitespace ∧
        (step st.operand mark y).split.taken ≠ [] := step_of_lost plain lost
    have member : (n + (p.length + 1), mark :: (step st.operand mark y).split.taken) ∈
        spans n (lexemes st (c :: ((f r).taken ++ y))) := by
      rw [split] at here
      rw [lexemes_of_step here, spans_solid solid, lexemes, spans_solid visible]
      simp
    have bound := apart _ member _ (List.mem_singleton_self _)
    have more := List.length_pos_iff.mpr longer
    simp only [last, List.length_append, List.length_cons, List.length_nil] at bound
    omega

end Whole

section Agreement

variable {st sj : LexState} {c : Char} {r y : List Char} {n : Nat}

/-- Another text too begins a line behind the line end. -/
theorem next_newline (newline : (step st c r).kind = .newline) :
    (step sj c ((step st c r).split.taken ++ y)).next = .initial := by
  rcases newline_cases newline with rfl | ⟨rfl, head⟩
  · rfl
  · simp [step, head]

theorem agrees_newline (newline : (step st c r).kind = .newline) :
    Agrees c (step st c r) (step sj c ((step st c r).split.taken ++ y)) y := by
  rcases newline_cases newline with rfl | ⟨rfl, head⟩
  · exact ⟨rfl, by simp [step], .refl rfl, by simp [step, LexState.initial]⟩
  · have here : step st '\r' r = ⟨.newline, ⟨['\n'], r.tail⟩, .initial⟩ := by simp [step, head]
    rw [here]
    exact ⟨rfl, by simp [step], .refl rfl, by simp [step, LexState.initial]⟩

theorem step_remark (st : LexState) (r : List Char) : step st '%' r = comment st r :=
  rfl

theorem agrees_comment (related : Related st sj)
    (behind : atBreak (step st '%' r).split.rest = true → Padded (step st '%' r).split.rest y)
    (block : '\n' ∈ (step st '%' r).split.taken → sj.lineStart = true) :
    Agrees '%' (step st '%' r) (step sj '%' ((step st '%' r).split.taken ++ y)) y := by
  rw [step_remark] at behind block ⊢
  rw [step_remark]
  have kind (st : LexState) : (comment st r).kind = .comment := by
    rw [comment]
    split <;> rfl
  have next (st : LexState) : (comment st r).next = st.plain := by
    rw [comment]
    split <;> rfl
  have ended : atBreak (comment st r).split.rest = true := by
    rw [comment]
    split
    · exact atBreak_blockRest r
    · exact atBreak_lineBody r
  have same : (comment sj r).split = (comment st r).split := by
    by_cases start : sj.lineStart = st.lineStart
    · rw [comment, comment, start]
      split <;> rfl
    · -- Only the first text has the comment at the start of a line.
      have within : sj.lineStart = false := by
        have forth := related.lineStart
        cases later : sj.lineStart <;> simp_all
      have line : comment sj r = ⟨.comment, lineBody r, sj.plain⟩ := by simp [comment, within]
      rw [line]
      rw [comment] at block ⊢
      split at block
      · next opens =>
        have none : '\n' ∉ (blockRest r).taken := by
          intro feed
          simp [within] at block
          exact block feed
        rw [if_pos opens, blockRest_of_no_feed none]
      · next other => rw [if_neg other]
  have again := stableAt_comment sj r y (by rw [same]; exact behind ended) (by simp [kind])
  rw [same] at again
  rw [again]
  refine ⟨by simp [LexStep.withRest, same], by simp [LexStep.withRest, kind], ?_, ?_⟩
  · simpa [LexStep.withRest, next] using related.after_plain
  · simp [LexStep.withRest, next, LexState.plain]

theorem agrees_dot (related : Related st sj) (kept : (step st '.' r).kind ≠ .comment)
    (apart : Uncrossed n sj '.' (step st '.' r).split.taken y) :
    Agrees '.' (step st '.' r) (step sj '.' ((step st '.' r).split.taken ++ y)) y := by
  rw [step_point st] at kept apart ⊢
  cases digit : r.head?.any Char.isDigit with
  | true =>
    have head := head_numberRest digit
    have again : ((numberRest '.' r).taken ++ y).head?.any Char.isDigit = true := by
      rcases taken : (numberRest '.' r).taken with _ | ⟨d, s⟩
      · simp [taken] at head
      · simpa [taken] using head
    rw [dot_number digit] at apart ⊢
    have here : step sj '.' ((numberRest '.' r).taken ++ y) =
        ⟨.number, numberRest '.' ((numberRest '.' r).taken ++ y), sj.operand⟩ := by
      rw [step_point, dot_number again]
    have whole := split_of_keeps (keeps_numberRest '.' r y) related.plain' (by simp) here apart
    rw [here, whole]
    exact ⟨rfl, by simp, related.after_operand, fun _ _ => rfl⟩
  | false =>
    cases free : takesPoint r with
    | true =>
      rcases takesPoint_cases free with ⟨d, s, rfl, symbol⟩ | ⟨s, rfl⟩
      · rw [dot_symbol symbol, step_point, List.singleton_append, dot_symbol symbol]
        refine ⟨rfl, by simp, ?_, ?_⟩
        · split
          · exact related.after_operand
          · exact related.after_plain
        · by_cases quote : d = '\''
          · subst quote
            exact fun _ _ => rfl
          · simp [quote, LexState.plain]
      · simp [dot_marker] at kept
    | false =>
      rw [dot_punctuation free digit] at apart ⊢
      have visible : (step sj '.' y).kind ≠ .whitespace := by
        rw [step_point]
        exact dot_ne_space sj y
      have whole : (step sj '.' ([] ++ y)).split = ⟨[], y⟩ :=
        split_of_reaches visible List.nil_prefix apart
      rw [step_point, List.nil_append] at whole
      rw [step_point, List.nil_append, dot_of_alone (by rw [whole])]
      exact ⟨rfl, by simp, related.after_point, fun _ _ => rfl⟩

theorem agrees_quote (mark : c = '\'' ∨ c = '"') (related : Related st sj)
    (apart : Uncrossed n sj c (step st c r).split.taken y)
    (behind : atBreak (step st c r).split.rest = true → Padded (step st c r).split.rest y)
    (quoted : sj.afterOperand = true → c = '\'' → (step st c r).kind = .string →
      (step st c r).split.taken = []) :
    Agrees c (step st c r) (step sj c ((step st c r).split.taken ++ y)) y := by
  by_cases first : c = '\'' ∧ st.afterOperand = true
  · obtain ⟨rfl, after⟩ := first
    rw [step_transpose after, step_transpose (related.operand after)]
    exact ⟨rfl, by simp, related.after_operand, fun _ _ => rfl⟩
  rw [step_string mark first] at apart behind quoted ⊢
  by_cases second : c = '\'' ∧ sj.afterOperand = true
  · -- The quote alone is all that is read, and it is the last character of its line.
    obtain ⟨rfl, after⟩ := second
    have alone : (stringBody '\'' r).taken = [] := quoted after rfl rfl
    have nothing : (stringBody '\'' r).rest = r := by
      simpa [Split.whole, alone] using stringBody_whole '\'' r
    have ended := atBreak_of_taken_nil alone
    rw [nothing] at behind
    rw [step_transpose after, alone]
    refine ⟨by simp [alone], by simp, ?_, ?_⟩
    · exact ⟨related.plain, related.plain', by simp [LexState.operand], by simp [LexState.plain],
        by simp [LexState.plain]⟩
    · intro _ next
      rw [(behind ended).head?_eq] at next
      rcases r with _ | ⟨d, r⟩
      · simp at next
      · obtain rfl : d = '\'' := by simpa using next
        simp [atBreak, atLineEnd] at ended
  · have whole : stringBody c ((stringBody c r).taken ++ y) = ⟨(stringBody c r).taken, y⟩ := by
      cases ended : atBreak (stringBody c r).rest with
      | true => exact stable_stringBody c r y (behind ended)
      | false =>
        have reach := reaches_stringBody mark ended y
        have here := step_string mark second ((stringBody c r).taken ++ y)
        have split := split_of_reaches (by simp [here]) (by rw [here]; exact reach) apart
        rwa [here] at split
    rw [step_string mark second, whole]
    exact ⟨rfl, by simp, related.after_plain, by simp [LexState.plain]⟩

theorem agrees_number (digit : c.isDigit = true) (related : Related st sj)
    (apart : Uncrossed n sj c (step st c r).split.taken y) :
    Agrees c (step st c r) (step sj c ((step st c r).split.taken ++ y)) y := by
  rw [step_of_digit digit st] at apart ⊢
  have whole := split_of_keeps (keeps_numberRest c r y) related.plain' (by simp)
    (step_of_digit digit sj _) apart
  rw [step_of_digit digit sj, whole]
  exact ⟨rfl, by simp, related.after_operand, fun _ _ => rfl⟩

/-- No signature begins behind a word that is not `function`, or that names a field. -/
theorem word_of_plain (plain : st.signature = .none)
    (named : st.afterDot = false → c :: (run isIdentRest r).taken ≠ "function".toList) :
    ∃ kind, word st c r = ⟨kind, run isIdentRest r, st.operand⟩ := by
  cases field : st.afterDot with
  | true => exact ⟨_, word_field field c r⟩
  | false =>
    have other : String.ofList (c :: (run isIdentRest r).taken) ≠ "function" := by
      intro spelled
      exact named field (by rw [← spelled, String.toList_ofList])
    have none : signatureAfter (String.ofList (c :: (run isIdentRest r).taken))
        (run isIdentRest r).rest = .none := by
      rw [signatureAfter, if_neg (by simpa using other)]
    refine ⟨wordKind st (String.ofList (c :: (run isIdentRest r).taken)) (run isIdentRest r).rest, ?_⟩
    rw [word_plain field plain, none, LexState.operand, plain]

theorem agrees_word (start : isIdentStart c = true) (related : Related st sj)
    (named : (step st c r).kind = .keyword → c :: (step st c r).split.taken ≠ "function".toList)
    (apart : Uncrossed n sj c (step st c r).split.taken y) :
    Agrees c (step st c r) (step sj c ((step st c r).split.taken ++ y)) y := by
  rw [step_of_letter start] at named apart ⊢
  have operand (s : LexState) (z : List Char) : (word s c z).kind ≠ .whitespace ∧
      ∀ cs, isOperand ((word s c z).kind, cs) = true := by
    have kinds := kind_word s c z
    simp only [List.mem_cons, List.not_mem_nil, or_false] at kinds
    rcases kinds with kind | kind | kind <;> simp [kind, isOperand]
  have free : st.afterDot = false → c :: (run isIdentRest r).taken ≠ "function".toList := by
    intro field spelled
    rw [word_plain field related.plain] at named
    refine named ?_ spelled
    simp only
    rw [spelled]
    rfl
  obtain ⟨kind, first⟩ := word_of_plain related.plain free
  rw [first] at apart
  have visible := (operand sj ((run isIdentRest r).taken ++ y)).1
  have body (z : List Char) : (word sj c z).split = run isIdentRest z := by
    cases field : sj.afterDot with
    | true => rw [word_field field]
    | false => rw [word_plain field related.plain']
  have whole := split_of_reaches (by rwa [step_of_letter start])
    (by rw [step_of_letter start, body]; exact reaches_run _ _ _) apart
  rw [step_of_letter start, body] at whole
  have again : sj.afterDot = false →
      c :: (run isIdentRest ((run isIdentRest r).taken ++ y)).taken ≠ "function".toList := by
    intro field
    rw [whole]
    apply free
    cases earlier : st.afterDot with
    | false => rfl
    | true => simp [related.field earlier] at field
  obtain ⟨kind', second⟩ := word_of_plain related.plain' again
  rw [step_of_letter start, first]
  rw [second, whole]
  have solid : kind' ≠ .whitespace := by rwa [second] at visible
  refine ⟨rfl, solid, related.after_operand, fun _ _ => ?_⟩
  have here := (operand st r).2 (c :: (run isIdentRest r).taken)
  rwa [first] at here

/-- A character that begins no longer lexeme stands alone, unless it begins an operator. -/
theorem step_symbol (blank : isBlank c = false) (remark : c ≠ '%') (point : c ≠ '.')
    (quote : ¬ (c = '\'' ∨ c = '"')) (digit : c.isDigit = false) (letter : isIdentStart c = false) (s : LexState)
    (z : List Char) :
    step s c z =
      if c == ')' || c == ']' || c == '\x7d' then ⟨.punctuation, ⟨[], z⟩, s.operand⟩
      else if c == '(' || c == '[' || c == '\x7b' || c == ',' || c == ';' then ⟨.punctuation, ⟨[], z⟩, s.plain⟩
      else if isOperatorStart c then operator s c z
      else ⟨.text, ⟨[], z⟩, s.plain⟩ := by
  rw [not_or] at quote
  rw [step_code blank remark]
  simp [code, point, quote, digit, letter]

/-- An operator has a second character before another text as well. -/
theorem agrees_operator (start : ∀ s z, step s c z = operator s c z) (related : Related st sj)
    (apart : Uncrossed n sj c (step st c r).split.taken y) :
    Agrees c (step st c r) (step sj c ((step st c r).split.taken ++ y)) y := by
  have sign {s : LexState} (plain : s.signature = .none) (z : List Char) :
      step s c z = ⟨.operator, optional (operatorSecond c) z, s.plain⟩ := by
    rw [start]
    simp [operator, plain, LexState.plain]
  rw [sign related.plain] at apart ⊢
  have again := sign related.plain' ((optional (operatorSecond c) r).taken ++ y)
  have whole := split_of_reaches (by simp [again])
    (by rw [again]; exact reaches_optional (operatorSecond c) r y) apart
  rw [again] at whole ⊢
  exact ⟨whole, by simp, related.after_plain, by simp [LexState.plain]⟩

/-- A lexeme of one character, or an operator that can have a second one. -/
theorem agrees_symbol (blank : isBlank c = false) (remark : c ≠ '%') (point : c ≠ '.')
    (quote : ¬ (c = '\'' ∨ c = '"')) (digit : c.isDigit = false) (letter : isIdentStart c = false)
    (related : Related st sj)
    (apart : Uncrossed n sj c (step st c r).split.taken y) :
    Agrees c (step st c r) (step sj c ((step st c r).split.taken ++ y)) y := by
  have here := step_symbol blank remark point quote digit letter
  by_cases closing : (c == ')' || c == ']' || c == '\x7d') = true
  · rw [here st, here sj, if_pos closing, if_pos closing]
    refine ⟨rfl, by simp, related.after_operand, fun _ _ => ?_⟩
    have cases : (c = ')' ∨ c = ']') ∨ c = '\x7d' := by simpa using closing
    rcases cases with (rfl | rfl) | rfl <;> rfl
  by_cases opening : (c == '(' || c == '[' || c == '\x7b' || c == ',' || c == ';') = true
  · rw [here st, here sj, if_neg closing, if_neg closing, if_pos opening, if_pos opening]
    exact ⟨rfl, by simp, related.after_plain, by simp [LexState.plain]⟩
  by_cases start : isOperatorStart c = true
  · refine agrees_operator (fun s z => ?_) related apart
    rw [here, if_neg closing, if_neg opening, if_pos start]
  · rw [here st, here sj, if_neg closing, if_neg closing, if_neg opening, if_neg opening, if_neg start, if_neg start]
    exact ⟨rfl, by simp, related.after_plain, by simp [LexState.plain]⟩

/-- A lexeme that is no white space is read again whole, if no other lexeme takes a part of it or
of the next one, no quote meets an operand, and a block comment begins its line. -/
theorem agrees_step (related : Related st sj) (solid : (step st c r).kind ≠ .whitespace)
    (kept : c = '.' → (step st c r).kind ≠ .comment)
    (named : (step st c r).kind = .keyword → c :: (step st c r).split.taken ≠ "function".toList)
    (apart : Uncrossed n sj c (step st c r).split.taken y)
    (behind : atBreak (step st c r).split.rest = true → Padded (step st c r).split.rest y)
    (quoted : sj.afterOperand = true → c = '\'' → (step st c r).kind = .string →
      (step st c r).split.taken = [])
    (block : c = '%' → '\n' ∈ (step st c r).split.taken → sj.lineStart = true) :
    Agrees c (step st c r) (step sj c ((step st c r).split.taken ++ y)) y := by
  cases blank : isBlank c with
  | true =>
    cases ended : atLineEnd (c :: r) with
    | true =>
      apply agrees_newline
      rcases atLineEnd_cons_iff.mp ended with rfl | ⟨rfl, s, rfl⟩ <;> simp [step]
    | false => simp [step_space blank ended] at solid
  | false =>
  by_cases remark : c = '%'
  · subst remark
    exact agrees_comment related behind (block rfl)
  by_cases point : c = '.'
  · subst point
    exact agrees_dot related (kept rfl) apart
  by_cases quote : c = '\'' ∨ c = '"'
  · exact agrees_quote quote related apart behind quoted
  cases digit : c.isDigit with
  | true => exact agrees_number digit related apart
  | false =>
  cases letter : isIdentStart c with
  | true => exact agrees_word letter related named apart
  | false => exact agrees_symbol blank remark point quote digit letter related apart

end Agreement

end Lexer

end MatlabOutline
