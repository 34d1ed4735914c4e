import MatlabOutline.Proofs.Lexing.Lines

/-!
Line ends and block comments are the only tokens with a line feed in them (`feeds_of_plain`).
-/

namespace MatlabOutline

theorem Split.not_mem_andThen {s : Split} {f : List Char → Split} {c : Char} (first : c ∉ s.taken)
    (second : ∀ cs, c ∉ (f cs).taken) : c ∉ (s.andThen f).taken := by
  simp [andThen, prepend, first, second]

namespace Scan

theorem not_mem_run {p : Char → Bool} {c : Char} (other : p c = false) (cs : List Char) :
    c ∉ (run p cs).taken := by
  intro member
  have holds := List.all_takeWhile (l := cs) (p := p)
  rw [List.all_eq_true] at holds
  exact absurd (holds c member) (by simp [other])

theorem feed_not_mem_lineBody (cs : List Char) : '\n' ∉ (lineBody cs).taken := by
  fun_induction lineBody cs with
  | case4 c r feed _ ih =>
    have other : '\n' ≠ c := fun same => feed same.symm
    simp [Split.push, other, ih]
  | _ => simp

theorem feed_not_mem_stringBody {quote : Char} (other : quote ≠ '\n') (cs : List Char) :
    '\n' ∉ (stringBody quote cs).taken := by
  fun_induction stringBody quote cs <;> simp_all [Split.push, eq_comm]

theorem feed_not_mem_digits (cs : List Char) : '\n' ∉ (digits cs).taken :=
  not_mem_run (by decide) cs

theorem feed_not_mem_imaginary (cs : List Char) : '\n' ∉ (imaginary cs).taken := by
  fun_cases imaginary cs with
  | case2 c r mark =>
    have letter : c = 'i' ∨ c = 'j' := by simp_all
    rcases letter with rfl | rfl <;> simp
  | _ => simp

theorem feed_not_mem_fraction (cs : List Char) : '\n' ∉ (fraction cs).taken := by
  fun_cases fraction cs <;> simp [Split.push, feed_not_mem_digits]

theorem feed_not_mem_exponent (cs : List Char) : '\n' ∉ (exponent cs).taken := by
  have mark {c : Char} (letter : isExponentMark c = true) : '\n' ≠ c := by
    rintro rfl
    simp [isExponentMark] at letter
  fun_cases exponent cs with
  | case3 c d r letter => simp [Split.push, mark letter, feed_not_mem_digits]
  | case4 c d r letter _ sign =>
    have other : '\n' ≠ d := by
      rintro rfl
      simp at sign
    simp [Split.push, mark letter, other, feed_not_mem_digits]
  | _ => simp

theorem feed_not_mem_numberRest (first : Char) (cs : List Char) :
    '\n' ∉ (numberRest first cs).taken := by
  fun_cases numberRest first cs with
  | case1 x r hex =>
    have other : '\n' ≠ x := by
      rintro rfl
      rcases r with _ | ⟨h, r⟩ <;> simp [startsHex] at hex
    have further := Split.not_mem_andThen (not_mem_run (by decide) r) feed_not_mem_imaginary
      (s := run isHexDigit r)
    simp [Split.push, other, further]
  | case2 => simp
  | case3 =>
    exact Split.not_mem_andThen (Split.not_mem_andThen (feed_not_mem_digits cs) feed_not_mem_exponent)
      feed_not_mem_imaginary
  | case4 =>
    exact Split.not_mem_andThen (Split.not_mem_andThen
      (Split.not_mem_andThen (feed_not_mem_digits cs) feed_not_mem_fraction) feed_not_mem_exponent)
      feed_not_mem_imaginary

theorem feed_not_mem_dottedRest (cs : List Char) : '\n' ∉ (dottedRest cs).taken := by
  fun_induction dottedRest cs with
  | case1 c r start ih =>
    have other : '\n' ≠ c := by
      rintro rfl
      revert start
      decide
    have part := not_mem_run (p := isIdentRest) (c := '\n') (by decide) r
    simp only [run] at part
    simp [Split.prepend, other, part, ih]
  | _ => simp

end Scan

namespace Lexer

theorem feed_not_mem_optional {second : Option Char} (other : second ≠ some '\n') (cs : List Char) :
    '\n' ∉ (optional second cs).taken := by
  fun_cases optional second cs with
  | case2 c r same =>
    have away : '\n' ≠ c := fun feed => other (same.trans (by rw [feed]))
    simp [away]
  | _ => simp

theorem feed_not_mem_dot (st : LexState) (r : List Char) : '\n' ∉ (dot st r).split.taken := by
  fun_cases dot st r with
  | case4 c r' _ _ _ mark =>
    have other : '\n' ≠ c := by
      rintro rfl
      simp at mark
    simp [other]
  | _ => simp [Scan.feed_not_mem_lineBody, Scan.feed_not_mem_numberRest]

theorem feed_not_mem_word (st : LexState) (c : Char) (r : List Char) :
    '\n' ∉ (word st c r).split.taken := by
  have body := Scan.not_mem_run (p := isIdentRest) (c := '\n') (by decide) r
  fun_cases word st c r with
  | case2 => exact Split.not_mem_andThen body Scan.feed_not_mem_dottedRest
  | _ => exact body

theorem operatorSecond_ne (c : Char) : operatorSecond c ≠ some '\n' := by
  fun_cases operatorSecond c <;> simp

/-- A lexeme with a line feed is a line end or a comment behind a `%`. -/
theorem step_with_feed {st : LexState} {c : Char} {r : List Char}
    (feed : '\n' ∈ c :: (step st c r).split.taken) :
    (step st c r).kind = .newline ∨ (step st c r).kind = .comment ∧ c = '%' := by
  by_cases first : c = '\n'
  · simp [step, first]
  · have later : '\n' ∈ (step st c r).split.taken := by simpa [Ne.symm first] using feed
    fun_cases step st c r
    case case3 feedless _ blank =>
      have none : '\n' ∉ (Scan.spaces r).taken := List.count_eq_zero.mp (feeds_spaces r)
      simp_all [step]
    all_goals
      simp_all [step, operator, feed_not_mem_dot, feed_not_mem_word, feed_not_mem_optional,
        operatorSecond_ne, Scan.feed_not_mem_lineBody, Scan.feed_not_mem_stringBody,
        Scan.feed_not_mem_numberRest]

end Lexer

/-- A token that is neither a line end nor a remark stays on its line. -/
theorem feeds_of_plain {source : String} {t : Token} (member : t ∈ tokenize source)
    (within : t.isNewline = false) (plain : t.isRemark = false) : Text.feeds t.text.toList = 0 := by
  have each := Lexer.forall_lexemes
    (motive := fun kind cs => '\n' ∈ cs → kind = .newline ∨ kind = .comment ∧ cs.head? = some '%')
    (fun st c r feed => (Lexer.step_with_feed feed).imp_right fun h => ⟨h.1, by simp [h.2]⟩)
    .initial source.toList
  apply List.count_eq_zero.mpr
  intro feed
  have kind : t.kind = .newline ∨ t.kind = .comment ∧ t.text.toList.head? = some '%' :=
    each _ (Token.mem_of_mem_place member) feed
  rcases kind with newline | ⟨comment, percent⟩
  · simp [Token.isNewline, newline] at within
  · rcases text : t.text.toList with _ | ⟨c, r⟩
    · simp [text] at percent
    · have first : c = '%' := by simpa [text] using percent
      simp [Token.isRemark, Token.isContinuation, comment, text, first] at plain

end MatlabOutline
