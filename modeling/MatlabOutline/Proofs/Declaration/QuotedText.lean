import MatlabOutline.Declaration.AttributeList
import MatlabOutline.Proofs.Lexing.Writing

/-!
Strings as they are written, with each quote in the content twice. Main statement: such a string is one token
up to its closing quote, or without one up to the end of its line, and either way removing the quotes gives
back the content (`Token.place_quotedText`).
-/

namespace MatlabOutline

theorem undouble_doubled_append (quote : Char) (content r : List Char) :
    undouble quote (Scan.doubled quote content ++ r) = content ++ undouble quote r := by
  have single {c : Char} (other : c ≠ quote) (cs : List Char) :
      undouble quote (c :: cs) = c :: undouble quote cs := by
    cases cs <;> simp [undouble, other]
  induction content with
  | nil => rfl
  | cons c content ih =>
    rw [Scan.doubled] at ih ⊢
    rw [List.flatMap_cons]
    split
    · next same => simpa [undouble, same] using ih
    · next other => simpa [single other] using ih

theorem undouble_doubled (quote : Char) (content : List Char) :
    undouble quote (Scan.doubled quote content) = content := by
  simpa [undouble] using undouble_doubled_append quote content []

/-- A string in quotes is read back as its content. -/
theorem unquote_doubled (quote : Char) (content : List Char) :
    unquote (String.ofList (quote :: (Scan.doubled quote content ++ [quote]))) = String.ofList content := by
  simp [unquote, unquoteChars, undouble_doubled]

theorem Scan.doubled_concat (quote : Char) (content : List Char) (c : Char) :
    doubled quote (content ++ [c]) = doubled quote content ++ if c = quote then [quote, quote] else [c] := by
  simp [doubled]

/-- Without a closing quote too. If the content ends with quotes, one of the last pair is taken for the closing
quote, and the other stands for itself. -/
theorem unquote_doubled_open (quote : Char) (content : List Char) :
    unquote (String.ofList (quote :: Scan.doubled quote content)) = String.ofList content := by
  suffices chars : unquoteChars (quote :: Scan.doubled quote content) = content by
    rw [unquote, String.toList_ofList, chars]
  rcases content.eq_nil_or_concat' with rfl | ⟨front, c, rfl⟩
  · rfl
  · rw [unquoteChars, Scan.doubled_concat]
    by_cases same : c = quote
    · have last : (Scan.doubled quote front ++ [quote, quote]).dropLast =
          Scan.doubled quote front ++ [quote] := by
        rw [List.dropLast_append_of_ne_nil (by simp)]
        rfl
      rw [if_pos same, if_pos (by simp), last, undouble_doubled_append, same]
      rfl
    · have last : (Scan.doubled quote front ++ [c]).getLast? ≠ some quote := by simpa using same
      rw [if_neg same, if_neg last, undouble_doubled_append]
      rfl

/-- How a string ends before what comes behind it: with its quote, if no other follows, or without one at the
end of its line or of the text. -/
inductive StringEnds (quote : Char) : List Char → List Char → Prop
  | closed {r : List Char} : r.head? ≠ some quote → StringEnds quote [quote] r
  | line {r : List Char} : Scan.atLineEnd r = true → StringEnds quote [] r
  | text : StringEnds quote [] []

namespace StringEnds

variable {quote : Char} {closing r : List Char} (ends : StringEnds quote closing r)
include ends

theorem stringBody (mark : quote = '\'' ∨ quote = '"') : Scan.stringBody quote (closing ++ r) = ⟨closing, r⟩ := by
  cases ends with
  | closed other =>
    rw [List.singleton_append, Scan.stringBody_quote (Scan.going_of_quote mark r), Scan.secondQuote,
      if_neg other]
    rfl
  | line ended =>
    rcases r with _ | ⟨c, r⟩
    · simp [Scan.atLineEnd] at ended
    · rw [List.nil_append, Scan.stringBody_cons, if_pos ended]
  | text => simp [Scan.stringBody]

theorem unquote (content : List Char) :
    MatlabOutline.unquote (String.ofList (quote :: (Scan.doubled quote content ++ closing))) =
      String.ofList content := by
  cases ends with
  | closed => exact unquote_doubled quote content
  | line => simpa using unquote_doubled_open quote content
  | text => simpa using unquote_doubled_open quote content

end StringEnds

open Lexer

/-- A string with each quote in its content written twice is one token, closed or not, and its content is found
again. A single quote opens a string only where no operand ends. -/
theorem Token.place_quotedText {quote : Char} {st : LexState}
    (opens : quote = '"' ∨ quote = '\'' ∧ st.afterOperand = false) {content : List Char}
    (within : '\n' ∉ content) (back : content.getLast? ≠ some '\r') {closing r : List Char}
    (ends : StringEnds quote closing r) (line : Nat) :
    place line (lexemes st (quote :: (Scan.doubled quote content ++ (closing ++ r)))) =
        ⟨.string, String.ofList (quote :: (Scan.doubled quote content ++ closing)), line⟩ ::
          place line (lexemes st.plain r) ∧
      unquote (String.ofList (quote :: (Scan.doubled quote content ++ closing))) = String.ofList content := by
  have mark : quote = '\'' ∨ quote = '"' := opens.symm.imp_left And.left
  have free : ¬ (quote = '\'' ∧ st.afterOperand = true) := by
    rintro ⟨rfl, after⟩
    simp [after] at opens
  have apart : NoBreak content (closing ++ r) := fun last => absurd last back
  -- The content is read whole, and what closes the string stops the reading.
  have body := Scan.stringBody_doubled_append mark within apart
  rw [ends.stringBody mark] at body
  have step := (step_string mark free _).trans (congrArg (LexStep.mk .string · st.plain) body)
  have solid : quote ≠ '\n' := by rcases mark with rfl | rfl <;> decide
  have inside := Scan.feed_not_mem_stringBody solid (Scan.doubled quote content ++ (closing ++ r))
  rw [body] at inside
  have sameLine : Text.feeds (quote :: (Scan.doubled quote content ++ closing)) = 0 :=
    List.count_eq_zero.mpr (List.not_mem_cons_of_ne_of_not_mem solid.symm inside)
  refine ⟨?_, ends.unquote content⟩
  rw [lexemes_of_step step, place, sameLine, Nat.add_zero]

/-- Where no quote closes the string, a quote at the end of its content is still written twice. -/
theorem Token.place_quotedText_unclosed :
    LexState.initial.afterOperand = false ∧ '\n' ∉ ['i', 't', '\''] ∧
      ['i', 't', '\''].getLast? ≠ some '\r' ∧ StringEnds '\'' [] ['\r', '\n', 'b'] ∧
      place 3 (lexemes .initial ['\'', 'i', 't', '\'', '\'', '\r', '\n', 'b']) =
        ⟨.string, "'it''", 3⟩ :: place 3 (lexemes {} ['\r', '\n', 'b']) ∧
      unquote "'it''" = "it'" := by
  have within : '\n' ∉ ['i', 't', '\''] := by decide
  have back : ['i', 't', '\''].getLast? ≠ some '\r' := by decide
  have ends : StringEnds '\'' [] ['\r', '\n', 'b'] := .line rfl
  have free : LexState.initial.afterOperand = false := rfl
  obtain ⟨token, content⟩ := place_quotedText (.inr ⟨rfl, free⟩) within back ends 3
  exact ⟨free, within, back, ends, token, content⟩

end MatlabOutline
