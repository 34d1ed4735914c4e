import MatlabOutline.Proofs.Lexing.Shapes

/-!
Texts that are cut behind a line end. Main statements: the lexemes up to a line end are those of the text up to
it, and the further ones those of the text behind it (`Lexer.lexemes_of_endsLine`), so that the tokens are cut
there as well (`tokenize_concat`). Behind a comment a line ends, or the text does (`newline_of_comment`).
-/

namespace MatlabOutline

/-- A text that has a line end reads like itself without anything behind it. -/
theorem Padded.append_left {r : List Char} (feed : '\n' ∈ r) (t : List Char) : Padded (r ++ t) r := by
  induction r with
  | nil => simp at feed
  | cons c r ih =>
    by_cases first : c = '\n'
    · rw [first]
      exact .line _ _
    · exact .cons c (ih (by simpa [Ne.symm first] using feed))

namespace Lexer

open Scan

variable {st : LexState} {c : Char} {r : List Char}

/-- Lexing up to a line end does not depend on what comes behind it, and starts afresh there. -/
theorem lexemes_of_endsLine {cs : List Char} {front back : List (TokenKind × List Char)}
    (cut : lexemes st cs = front ++ back) (ended : EndsLine front) :
    lexemes st (spelled front) = front ∧ lexemes .initial (spelled back) = back := by
  induction front generalizing st cs with
  | nil => simp [EndsLine] at ended
  | cons x front ih =>
    rcases cs with _ | ⟨c, r⟩
    · simp [lexemes] at cut
    rw [lexemes, List.cons_append, List.cons.injEq] at cut
    obtain ⟨rfl, further⟩ := cut
    have whole : (step st c r).split.taken ++ (step st c r).split.rest = r := step_whole st c r
    have text : spelled front ++ spelled back = (step st c r).split.rest := by
      rw [← lexemes_flatten (step st c r).next (step st c r).split.rest, further]
      simp [spelled]
    rcases front with _ | ⟨y, front⟩
    · have newline : (step st c r).kind = .newline := by simpa [EndsLine] using ended
      have here := step_of_newline newline
      have next : (step st c r).next = .initial := by
        rw [← whole, here]
      rw [List.nil_append] at further
      rw [spelled_nil, List.nil_append] at text
      refine ⟨?_, by rw [text, ← next, further]⟩
      rw [spelled_cons, spelled_nil, List.cons_append, lexemes_of_step (here []), lexemes, newline]
    · obtain ⟨again, behind⟩ := ih further ended.tail
      refine ⟨?_, behind⟩
      have feed : '\n' ∈ spelled (y :: front) :=
        @mem_feed_of_endsLine (step st c r).next _ (by rw [again]; exact ended.tail)
      have step := stableAt_step st c r (spelled (y :: front)) (text ▸ .append_left feed _)
        (fun _ _ => text ▸ (signatureHasOutputs_append feed 0 _).symm)
      rw [spelled_cons, List.cons_append, lexemes, step]
      simp only [LexStep.withRest, again]

/-- A line ends behind a comment, or the text does. -/
theorem atBreak_of_comment (comment : (step st c r).kind = .comment) :
    atBreak (step st c r).split.rest = true := by
  by_cases point : c = '.'
  · subst point
    rw [step_point] at comment ⊢
    revert comment
    fun_cases dot st r
    case case1 s => exact fun _ => atBreak_lineBody _
    all_goals simp
  fun_cases step st c r
  case case4 => exact atBreak_blockRest r
  case case5 => exact atBreak_lineBody r
  case case10 =>
    have kinds := kind_word st c r
    simp_all [step]
  all_goals simp_all [step, operator]

theorem isChain_comments (st : LexState) (cs : List Char) :
    (lexemes st cs).IsChain fun x y => x.1 = .comment → y.1 = .newline := by
  fun_induction lexemes st cs with
  | case1 => exact .nil
  | case2 st c r s ih =>
    apply ih.cons
    intro y first comment
    have ended := atBreak_of_comment comment
    rw [show (step st c r).split.rest = s.split.rest from rfl] at ended
    rcases rest : s.split.rest with _ | ⟨d, t⟩
    · simp [rest, lexemes] at first
    rw [rest, lexemes, List.head?_cons, Option.mem_some_iff] at first
    have line : atLineEnd (d :: t) = true := by simpa [rest, atBreak] using ended
    rw [← first]
    rcases atLineEnd_cons_iff.mp line with rfl | ⟨rfl, u, rfl⟩ <;> rfl

end Lexer

/-- The token behind a comment is a line end. -/
theorem newline_of_comment {source : String} {before after : List Token} {t u : Token}
    (cut : tokenize source = before ++ t :: u :: after) (comment : t.kind = .comment) :
    u.isNewline = true := by
  have chain := Lexer.isChain_comments .initial source.toList
  rw [lexemes_of_cut cut, List.isChain_append] at chain
  have next := (List.isChain_cons_cons.mp chain.2.1).1 comment
  simpa [Token.isNewline, Token.lexeme] using next

/-- Whole lines of tokens are the tokens of their text, and those behind them are the tokens of theirs, moved
down by the lines before. -/
theorem tokenize_concat {source : String} {front back : List Token} (cut : tokenize source = front ++ back)
    (ended : front.getLast?.all Token.isNewline = true) :
    tokenize (Token.concat front) = front ∧
      (tokenize (Token.concat back)).map (Token.below (Text.feeds (Token.concat front).toList)) = back := by
  have alone : tokenize (Token.concat front) = front := by
    rcases List.eq_nil_or_concat' front with rfl | ⟨init, e, rfl⟩
    · simp [tokenize, Lexer.lexemes, Token.place]
    have newline : e.kind = .newline := by simpa [Token.isNewline] using ended
    have lexemes := Token.map_lexeme_tokenize source
    rw [cut, List.map_append] at lexemes
    have again := (Lexer.lexemes_of_endsLine lexemes.symm (by simp [Lexer.EndsLine, Token.lexeme, newline])).1
    have placed := congrArg (Token.place 1) lexemes
    rw [Token.place_append, ← tokenize, cut] at placed
    rw [Token.spelled_lexemes] at again
    rw [tokenize, again]
    have size := congrArg List.length (Token.map_lexeme_place 1 ((init ++ [e]).map Token.lexeme))
    exact (List.append_inj placed (by simpa using size)).1
  refine ⟨alone, (List.append_right_inj front).mp ?_⟩
  have whole := concat_tokenize source
  rw [cut, Token.concat_append] at whole
  have first : endsLine (Token.concat front) = true := by rwa [endsLine, alone]
  have joined := place_append_of_endsLine first (Token.concat back).toList
  rw [alone, ← String.toList_append, whole] at joined
  exact joined.symm.trans cut

end MatlabOutline
