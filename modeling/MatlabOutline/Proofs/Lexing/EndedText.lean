import MatlabOutline.Proofs.Lexing.EndedScanners

/-!
A line feed behind a text. Main statement: the lexemes of a text without comments are read again when
a line feed and any other text stand behind it, but for a carriage return at its end, which then belongs
to the line end (`Lexer.lexemes_feed`).
-/

namespace MatlabOutline

namespace Lexer

open Scan

theorem boundedBy_nothing (d : Char) : BoundedBy d fun r => ⟨[], r⟩ :=
  fun _ _ => rfl

theorem boundedBy_optional {d : Char} {second : Option Char} (other : second ≠ some d) :
    BoundedBy d (optional second) := by
  rintro (_ | ⟨c, r⟩) t
  · simp [optional, other]
  · simp only [List.cons_append, optional]
    split <;> rfl

theorem operatorSecond_not_blank {d : Char} (c : Char) (blank : isBlank d = true) :
    operatorSecond c ≠ some d := by
  intro second
  have marks : d = '=' ∨ d = '&' ∨ d = '|' := by
    revert second
    fun_cases operatorSecond c <;> simp +contextual [eq_comm]
  rcases marks with rfl | rfl | rfl <;> simp [isBlank] at blank

/-- Before a line feed the reader reads the lexeme that it reads on `r`, or it leaves a carriage return
at the end of `r` to the line end. -/
def MeetsFeed (f : List Char → LexStep) (r : List Char) : Prop :=
  ((∀ t, f (r ++ '\n' :: t) = (f r).withRest ((f r).split.rest ++ '\n' :: t)) ∧
      ((f r).split.rest = [] → r.getLast? ≠ some '\r')) ∨
    ∃ v, r = v ++ ['\r'] ∧ ((f r).kind = .whitespace ∨ (f r).kind = .string) ∧ (f r).split = ⟨r, []⟩ ∧
      ∀ t, f (r ++ '\n' :: t) = ⟨(f r).kind, ⟨v, '\r' :: '\n' :: t⟩, (f r).next⟩

theorem meetsFeed_scan {f : List Char → Split} {kind : TokenKind} (left : kind = .whitespace ∨ kind = .string)
    (next : LexState) {r : List Char} (meets : Scan.MeetsFeed f r) :
    MeetsFeed (fun r => ⟨kind, f r, next⟩) r := by
  rcases meets with ⟨same, last⟩ | ⟨v, cut, whole, open_⟩
  · exact .inl ⟨fun t => by simp only [same, LexStep.withRest], last⟩
  · exact .inr ⟨v, cut, left, whole, fun t => by simp only [open_]⟩

theorem meetsFeed_bounded {f : List Char → Split} (feed : BoundedBy '\n' f)
    (carriage : BoundedBy '\r' f) (total : ∀ r, (f r).whole = r) (kind : TokenKind) (next : LexState)
    (r : List Char) : MeetsFeed (fun r => ⟨kind, f r, next⟩) r := by
  rcases meetsFeed_of_bounded feed carriage total r with ⟨same, last⟩ | ⟨v, rfl, whole, -⟩
  · exact .inl ⟨fun t => by simp only [same, LexStep.withRest], last⟩
  · exact absurd (by simp [whole]) (carriage.not_mem total (v ++ ['\r']))

theorem meetsFeed_nothing (kind : TokenKind) (next : LexState) (r : List Char) :
    MeetsFeed (fun r => ⟨kind, ⟨[], r⟩, next⟩) r :=
  meetsFeed_bounded (boundedBy_nothing _) (boundedBy_nothing _) (fun _ => rfl) kind next r

theorem meetsFeed_number (first : Char) (next : LexState) (r : List Char) :
    MeetsFeed (fun r => ⟨.number, numberRest first r, next⟩) r :=
  meetsFeed_bounded (boundedBy_numberRest (by decide) first) (boundedBy_numberRest (by decide) first)
    (numberRest_whole first) .number next r

theorem MeetsFeed.congr {f g : List Char → LexStep} {r : List Char} (meets : MeetsFeed g r)
    (here : f r = g r) (there : ∀ t, f (r ++ '\n' :: t) = g (r ++ '\n' :: t)) : MeetsFeed f r := by
  simp only [MeetsFeed, here, there]
  exact meets

theorem meetsFeed_dot {st : LexState} {r : List Char} (code : (dot st r).kind ≠ .comment) :
    MeetsFeed (dot st) r := by
  have head (t : List Char) : (r ++ '\n' :: t).head?.any Char.isDigit = r.head?.any Char.isDigit :=
    head?_any_append (by decide) r t
  cases digit : r.head?.any Char.isDigit with
  | true =>
    exact (meetsFeed_number '.' st.operand r).congr (dot_number digit) fun t => dot_number (by rw [head, digit])
  | false =>
  cases free : takesPoint r with
  | false =>
    exact (meetsFeed_nothing _ _ r).congr (dot_punctuation free digit) fun t =>
      dot_punctuation (by rw [takesPoint_bounded (by decide), free]) (by rw [head, digit])
  | true =>
    rcases takesPoint_cases free with ⟨d, s, rfl, symbol⟩ | ⟨s, rfl⟩
    · left
      refine ⟨fun t => ?_, fun empty => ?_⟩
      · rw [List.cons_append, dot_symbol symbol, dot_symbol symbol]
        rfl
      · have other : d ≠ '\r' := by
          rintro rfl
          simp at symbol
        rw [dot_symbol symbol] at empty
        simp [show s = [] from empty, other]
    · simp [dot_marker] at code

theorem endsBlockWord_feed (r t : List Char) : endsBlockWord (r ++ '\n' :: t) = endsBlockWord r := by
  have assigned : startsAssignment (spaces (r ++ '\n' :: t)).rest = startsAssignment (spaces r).rest := by
    rcases meetsFeed_spaces r with ⟨same, -⟩ | ⟨v, -, whole, left⟩
    · rw [same]
      rcases (spaces r).rest with _ | ⟨d, _ | ⟨e, s⟩⟩ <;> simp [startsAssignment, bne]
    · rw [whole, left]
      rfl
  rw [endsBlockWord_eq, endsBlockWord_eq, assigned]
  rcases r with _ | ⟨d, r⟩
  · simp [show isBlank '\n' = true by decide]
  · rfl

/-- A lexeme that is no comment and begins no signature. -/
def IsCode (x : TokenKind × List Char) : Prop :=
  x.1 ≠ .comment ∧ x ≠ (.keyword, "function".toList)

variable {st : LexState} {c : Char} {r : List Char}

theorem meetsFeed_word (plain : st.signature = .none)
    (own : IsCode ((word st c r).kind, c :: (word st c r).split.taken)) : MeetsFeed (word st c) r := by
  have scanned (kind : TokenKind) (next : LexState) :
      MeetsFeed (fun r => ⟨kind, run isIdentRest r, next⟩) r :=
    meetsFeed_bounded (boundedBy_ident (by decide)) (boundedBy_ident (by decide)) (run_whole _) kind next r
  cases field : st.afterDot with
  | true => exact (scanned .name st.operand).congr (word_field field c r) fun t => word_field field c _
  | false =>
    refine (scanned _ _).congr (word_plain field plain c r) fun t => ?_
    have body := boundedBy_ident (d := '\n') (by decide) r t
    rw [word_plain field plain, body, wordKind, endsBlockWord_feed, ← wordKind, LexStep.mk.injEq]
    refine ⟨rfl, rfl, ?_⟩
    have other : String.ofList (c :: (run isIdentRest r).taken) ≠ "function" := by
      intro spelled
      rw [word_plain field plain] at own
      simp only at own
      have reserved : wordKind st "function" (run isIdentRest r).rest = .keyword := by
        rw [wordKind, if_pos (by decide)]
      apply own.2
      rw [spelled, reserved, ← spelled, String.toList_ofList]
    have none (z : List Char) : signatureAfter (String.ofList (c :: (run isIdentRest r).taken)) z = .none := by
      rw [signatureAfter, if_neg (by simpa using other)]
    rw [none, none]

theorem meetsFeed_code (plain : st.signature = .none)
    (own : IsCode ((code st c r).kind, c :: (code st c r).split.taken)) : MeetsFeed (code st c) r := by
  unfold code at own ⊢
  split
  · next point =>
    rw [if_pos point] at own
    exact meetsFeed_dot own.1
  next point =>
  rw [if_neg point] at own
  split
  · exact meetsFeed_nothing _ _ r
  next transpose =>
  rw [if_neg transpose] at own
  split
  · next quote =>
    exact meetsFeed_scan (.inr rfl) _ (meetsFeed_stringBody (by simpa using quote) r)
  next quote =>
  rw [if_neg quote] at own
  split
  · exact meetsFeed_number _ _ r
  next digit =>
  rw [if_neg digit] at own
  split
  · next letter =>
    rw [if_pos letter] at own
    exact meetsFeed_word plain own
  split
  · exact meetsFeed_nothing _ _ r
  split
  · exact meetsFeed_nothing _ _ r
  split
  · exact meetsFeed_bounded (boundedBy_optional (operatorSecond_not_blank c (by decide)))
      (boundedBy_optional (operatorSecond_not_blank c (by decide))) (optional_whole _) _ _ r
  · exact meetsFeed_nothing _ _ r

/-- No signature begins, and no name is declared, where no lexeme is `function`. -/
theorem plain_step (plain : st.signature = .none)
    (own : IsCode ((step st c r).kind, c :: (step st c r).split.taken)) :
    (step st c r).next.signature = .none ∧ (step st c r).kind ≠ .nameFunction := by
  fun_cases step st c r
  case case6 point =>
    refine ⟨(signature_dot st r).trans plain, fun declared => ?_⟩
    have kinds := kind_dot st r
    simp [declared] at kinds
  case case10 letter =>
    rw [step_of_letter letter] at own
    cases field : st.afterDot with
    | true => simp [word_field field, LexState.operand, plain]
    | false =>
      have named : st.afterDot = false → c :: (run isIdentRest r).taken ≠ "function".toList := by
        intro _ spelled
        rw [word_plain field plain, spelled] at own
        exact own.2 rfl
      obtain ⟨kind, here⟩ := word_of_plain plain named
      refine ⟨by rw [here]; exact plain, ?_⟩
      rw [word_plain field plain, wordKind]
      split
      · simp
      · split <;> simp
  case case13 => simp [operator, plain]
  all_goals simp [LexState.initial, LexState.blank, LexState.plain, LexState.operand, plain]

theorem meetsFeed_step (plain : st.signature = .none)
    (own : IsCode ((step st c r).kind, c :: (step st c r).split.taken))
    (more : ¬ (c = '\r' ∧ r = [])) : MeetsFeed (step st c) r := by
  have same := atLineEnd_feed more
  cases ended : atLineEnd (c :: r) with
  | true =>
    rcases atLineEnd_cons_iff.mp ended with rfl | ⟨rfl, s, rfl⟩
    · exact meetsFeed_nothing .newline .initial r
    · refine .inl ⟨fun t => rfl, fun empty => ?_⟩
      simp [show s = [] from empty]
  | false =>
  cases blank : isBlank c with
  | true =>
    exact (meetsFeed_scan (.inl rfl) _ (meetsFeed_spaces r)).congr (step_space blank ended) fun t =>
      step_space blank (by rw [same, ended])
  | false =>
  have remark : c ≠ '%' := by
    rintro rfl
    rw [step_remark] at own
    apply own.1
    rw [comment]
    split <;> rfl
  rw [step_code blank remark] at own
  exact (meetsFeed_code plain own).congr (step_code blank remark st r) fun t => step_code blank remark st _

theorem NoBreak.cons {w y : List Char} (apart : NoBreak w y) (first : w = [] → NoBreak [c] y) :
    NoBreak (c :: w) y := by
  rcases w with _ | ⟨d, w⟩
  · exact first rfl
  · intro last
    exact apart (by simpa using last)

theorem noBreak_of_not_mem {w : List Char} (none : '\r' ∉ w) (y : List Char) : NoBreak w y :=
  fun last => absurd (List.mem_of_getLast? last) none

theorem carriage_not_mem_dot (code : (dot st r).kind ≠ .comment) : '\r' ∉ (dot st r).split.taken := by
  fun_cases dot st r
  case case1 => simp [dot_marker] at code
  case case4 d r _ _ _ mark =>
    have other : '\r' ≠ d := by
      rintro rfl
      simp at mark
    simpa using other
  case case3 => exact (boundedBy_numberRest (by decide) '.').not_mem (numberRest_whole '.') _
  all_goals simp

theorem carriage_not_mem_dottedRest (cs : List Char) : '\r' ∉ (dottedRest cs).taken := by
  fun_induction dottedRest cs with
  | case1 c r start ih =>
    have other : '\r' ≠ c := by
      rintro rfl
      revert start
      decide
    have part := not_mem_run (p := isIdentRest) (c := '\r') (by decide) r
    simp only [run] at part
    simp [Split.prepend, other, part, ih]
  | _ => simp

theorem carriage_not_mem_word (st : LexState) (c : Char) (r : List Char) :
    '\r' ∉ (word st c r).split.taken := by
  have body := not_mem_run (p := isIdentRest) (c := '\r') (by decide) r
  fun_cases word st c r with
  | case2 => exact Split.not_mem_andThen body carriage_not_mem_dottedRest
  | _ => exact body

theorem carriage_not_mem_code (code : (Lexer.code st c r).kind ≠ .comment) (quote : ¬ (c = '\'' ∨ c = '"')) :
    '\r' ∉ (Lexer.code st c r).split.taken := by
  fun_cases Lexer.code st c r
  case case1 point => exact carriage_not_mem_dot (by simpa [Lexer.code, point] using code)
  case case3 => simp_all
  case case4 => exact (boundedBy_numberRest (by decide) c).not_mem (numberRest_whole c) r
  case case5 => exact carriage_not_mem_word st c r
  case case8 =>
    exact (boundedBy_optional (operatorSecond_not_blank c (by decide))).not_mem (optional_whole _) r
  all_goals simp

/-- No line end arises between a lexeme and the text behind it. -/
theorem noBreak_step (own : (step st c r).kind ≠ .comment)
    (code : (step st c r).kind ≠ .newline) :
    NoBreak (c :: (step st c r).split.taken) (step st c r).split.rest := by
  cases blank : isBlank c with
  | true =>
    cases ended : atLineEnd (c :: r) with
    | true => rcases atLineEnd_cons_iff.mp ended with rfl | ⟨rfl, s, rfl⟩ <;> simp [step] at code
    | false =>
      rw [step_space blank ended]
      refine (noBreak_of_meetsFeed meetsFeed_spaces spaces_whole r).cons fun none => ?_
      have whole : (spaces r).rest = r := by simpa [Split.whole, none] using spaces_whole r
      rw [whole]
      intro last head
      simp_all [atLineEnd]
  | false =>
    have other : NoBreak [c] (step st c r).split.rest := by
      apply noBreak_of_not_mem
      rw [List.mem_singleton]
      rintro rfl
      simp [isBlank] at blank
    have remark : c ≠ '%' := by
      rintro rfl
      rw [step_remark] at own
      apply own
      rw [comment]
      split <;> rfl
    refine NoBreak.cons ?_ fun _ => other
    by_cases quote : c = '\'' ∨ c = '"'
    · by_cases first : c = '\'' ∧ st.afterOperand = true
      · obtain ⟨rfl, after⟩ := first
        rw [step_transpose after]
        exact noBreak_of_not_mem (by simp) _
      · rw [step_string quote first]
        exact noBreak_of_meetsFeed (meetsFeed_stringBody quote) (stringBody_whole c) r
    · rw [step_code blank remark] at own ⊢
      exact noBreak_of_not_mem (carriage_not_mem_code own quote) _

/-- The second run is the first, but that a carriage return at its end is missing. -/
inductive Clipped : List (TokenKind × List Char) → List (TokenKind × List Char) → Prop
  | nil : Clipped [] []
  | dropped : Clipped [(.whitespace, ['\r'])] []
  | shortened {kind : TokenKind} (open_ : kind = .whitespace ∨ kind = .string) (cs : List Char) :
      Clipped [(kind, cs ++ ['\r'])] [(kind, cs)]
  | cons (x : TokenKind × List Char) {xs ys : List (TokenKind × List Char)} : Clipped xs ys →
      Clipped (x :: xs) (x :: ys)

/-- A line feed behind a text without comments ends its line, and the lexemes before it are those of the
text. -/
theorem lexemes_feed {cs : List Char} (plain : st.signature = .none) (own : ∀ x ∈ lexemes st cs, IsCode x) :
    ∃ xs nl, (∀ t, lexemes st (cs ++ '\n' :: t) = xs ++ (.newline, nl) :: lexemes .initial t) ∧
      Clipped (lexemes st cs) xs := by
  have broken (st : LexState) (t : List Char) :
      lexemes st ('\r' :: '\n' :: t) = (.newline, ['\r', '\n']) :: lexemes .initial t := by
    rw [lexemes]
    rfl
  fun_induction lexemes st cs with
  | case1 st =>
    refine ⟨[], ['\n'], fun t => ?_, .nil⟩
    rw [List.nil_append, lexemes]
    rfl
  | case2 st c r s ih =>
    rw [List.forall_mem_cons] at own
    by_cases single : c = '\r' ∧ r = []
    · obtain ⟨rfl, rfl⟩ := single
      refine ⟨[], ['\r', '\n'], fun t => broken st t, ?_⟩
      rw [show lexemes s.next s.split.rest = [] by rw [show s.split.rest = [] from rfl, lexemes]]
      exact .dropped
    · rcases meetsFeed_step plain own.1 single with ⟨same, -⟩ | ⟨v, rfl, kind, whole, left⟩
      · obtain ⟨xs, nl, rest, clipped⟩ := ih (plain_step plain own.1).1 own.2
        refine ⟨_, nl, fun t => ?_, .cons _ clipped⟩
        rw [List.cons_append, lexemes, same]
        exact congrArg _ (rest t)
      · have split : s.split = ⟨v ++ ['\r'], []⟩ := whole
        refine ⟨[(s.kind, c :: v)], ['\r', '\n'], fun t => ?_, ?_⟩
        · rw [List.cons_append, lexemes, left]
          simp only [broken]
          rfl
        · rw [split, lexemes]
          exact .shortened kind (c :: v)

/-- What a lexeme contributes to a text in which a line feed ends every line. -/
def piece (x : TokenKind × List Char) : List Char :=
  if x.1 = .newline then ['\n'] else x.2

theorem unix_of_no_feed {cs : List Char} (within : '\n' ∉ cs) : Text.unix cs = cs := by
  induction cs with
  | nil => rfl
  | cons c cs ih =>
    rw [List.mem_cons, not_or] at within
    have head : cs.head? ≠ some '\n' := fun first => within.2 (List.mem_of_head? first)
    rw [Text.unix, if_neg fun pair => head pair.2, ih within.2]

/-- Writing every line end as a line feed leaves out the carriage returns before line feeds. -/
theorem flatMap_piece {cs : List Char} (plain : st.signature = .none) (own : ∀ x ∈ lexemes st cs, IsCode x) :
    (lexemes st cs).flatMap piece = Text.unix cs := by
  fun_induction lexemes st cs with
  | case1 => rfl
  | case2 st c r s ih =>
    rw [List.forall_mem_cons] at own
    have whole : s.split.taken ++ s.split.rest = r := step_whole st c r
    rw [List.flatMap_cons, ih (plain_step plain own.1).1 own.2, piece]
    by_cases newline : s.kind = .newline
    · rw [if_pos newline]
      rcases newline_cases newline with rfl | ⟨rfl, head⟩
      · rfl
      · rcases r with _ | ⟨d, r⟩
        · simp at head
        obtain rfl : d = '\n' := by simpa using head
        rfl
    · rw [if_neg newline]
      have within : '\n' ∉ c :: s.split.taken := fun feed =>
        (step_with_feed feed).elim newline fun remark => own.1.1 remark.1
      rw [← whole, ← List.cons_append, Text.unix_append, unix_of_no_feed within]
      have apart := noBreak_step own.1.1 newline
      by_contra joined
      rw [not_or, not_not, not_not] at joined
      exact apart joined.1 joined.2

end Lexer

end MatlabOutline
