import MatlabOutline.Proofs.Lexing.Lines
import MatlabOutline.Proofs.Lexing.StableStep

/-!
Lexing starts afresh behind a line end. Main statements: the lexemes of a text that ends in a line end
do not depend on what is put behind it (`Lexer.lexemes_append`), so that the tokens of two texts put
together are the tokens of both, those of the second moved down (`tokenize_append_line`).
-/

namespace MatlabOutline

theorem Scan.signatureHasOutputs_append {r : List Char} (feed : '\n' ∈ r) (depth : Nat)
    (t : List Char) : signatureHasOutputs depth (r ++ t) = signatureHasOutputs depth r := by
  induction r generalizing depth with
  | nil => simp at feed
  | cons c r ih =>
    by_cases first : c = '\n'
    · simp [signatureHasOutputs, first]
    · have later : '\n' ∈ r := by simpa [Ne.symm first] using feed
      have head : (r ++ t).head? = r.head? := by
        rcases r with _ | ⟨d, r⟩
        · simp at later
        · rfl
      simp only [List.cons_append, signatureHasOutputs, head, ih later]

namespace Lexer

theorem step_of_newline {st : LexState} {c : Char} {r : List Char}
    (newline : (step st c r).kind = .newline) (t : List Char) :
    step st c ((step st c r).split.taken ++ t) = ⟨.newline, ⟨(step st c r).split.taken, t⟩, .initial⟩ := by
  rcases newline_cases newline with rfl | ⟨rfl, head⟩
  · rfl
  · simp [step, head]

/-- The last lexeme is a line end. -/
def EndsLine (xs : List (TokenKind × List Char)) : Prop :=
  xs.getLast?.map Prod.fst = some .newline

theorem EndsLine.tail {x y : TokenKind × List Char} {xs : List (TokenKind × List Char)}
    (ended : EndsLine (x :: y :: xs)) : EndsLine (y :: xs) := by
  simpa [EndsLine] using ended

theorem mem_feed_of_endsLine {st : LexState} {s : List Char} (ended : EndsLine (lexemes st s)) :
    '\n' ∈ s := by
  obtain ⟨x, last, kind⟩ := Option.map_eq_some_iff.mp ended
  have member := List.mem_of_getLast? last
  have single := forall_lexemes (motive := fun kind cs => kind = .newline → Text.feeds cs = 1)
    (fun _ _ _ => feeds_step_of_newline) st s x member kind
  have inside : '\n' ∈ x.2 := List.count_pos_iff.mp (by unfold Text.feeds at single; omega)
  rw [← lexemes_flatten st s]
  exact List.mem_flatten.mpr ⟨x.2, List.mem_map_of_mem member, inside⟩

/-- Behind a line end lexing starts afresh. -/
theorem lexemes_append {st : LexState} {s : List Char} (ended : EndsLine (lexemes st s))
    (t : List Char) : lexemes st (s ++ t) = lexemes st s ++ lexemes .initial t := by
  fun_induction lexemes st s with
  | case1 => simp [EndsLine] at ended
  | case2 st c r s ih =>
    have whole : s.split.taken ++ s.split.rest = r := step_whole st c r
    rw [List.cons_append, lexemes]
    by_cases last : s.split.rest = []
    · rw [last, List.append_nil] at whole
      have newline : s.kind = .newline := by simpa [EndsLine, last, lexemes] using ended
      have step := step_of_newline newline t
      rw [show (Lexer.step st c r).split.taken = r from whole] at step
      simp only [step, last]
      rw [newline, lexemes.eq_1, ← whole]
      rfl
    · have rest : EndsLine (lexemes s.next s.split.rest) := by
        rcases more : s.split.rest with _ | ⟨d, u⟩
        · exact absurd more last
        · rw [more, lexemes] at ended
          rw [lexemes]
          exact ended.tail
      have feed := mem_feed_of_endsLine rest
      have step := stableAt_step st c r (s.split.rest ++ t) (.append_right feed t)
        (fun _ _ => Scan.signatureHasOutputs_append feed 0 t)
      rw [← List.append_assoc, show (Lexer.step st c r).split.taken ++ s.split.rest = r from whole] at step
      rw [step]
      simp only [LexStep.withRest, List.cons_append, List.cons.injEq]
      exact ⟨rfl, ih rest⟩

end Lexer

/-- A text that is empty or ends with a line end. -/
def endsLine (source : String) : Bool :=
  (tokenize source).getLast?.all Token.isNewline

namespace Token

theorem map_kind_place (line : Nat) (xs : List (TokenKind × List Char)) :
    (place line xs).map kind = xs.map Prod.fst := by
  induction xs generalizing line with
  | nil => rfl
  | cons x xs ih => simp [place, ih]

/-- The kind and the characters of a token. -/
def lexeme (t : Token) : TokenKind × List Char :=
  (t.kind, t.text.toList)

theorem map_lexeme_place (line : Nat) (xs : List (TokenKind × List Char)) :
    (place line xs).map lexeme = xs := by
  induction xs generalizing line with
  | nil => rfl
  | cons x xs ih => simp [place, ih, lexeme]

theorem map_lexeme_tokenize (source : String) :
    (tokenize source).map lexeme = Lexer.lexemes .initial source.toList :=
  map_lexeme_place 1 _

/-- The token `n` lines further down. -/
def below (n : Nat) (t : Token) : Token :=
  { t with line := t.line + n }

theorem place_below (line n : Nat) (xs : List (TokenKind × List Char)) :
    place (line + n) xs = (place line xs).map (below n) := by
  induction xs generalizing line with
  | nil => rfl
  | cons x xs ih =>
    have moved : line + n + Text.feeds x.2 = line + Text.feeds x.2 + n := by omega
    simp only [place, List.map_cons, below, moved, ih]

theorem place_append (line : Nat) (xs ys : List (TokenKind × List Char)) :
    place line (xs ++ ys) =
      place line xs ++ place (line + Text.feeds (xs.map Prod.snd).flatten) ys := by
  induction xs generalizing line with
  | nil => rfl
  | cons x xs ih =>
    simp only [List.cons_append, place, ih, List.map_cons, List.flatten_cons, Text.feeds_append,
      Nat.add_assoc]

end Token

theorem lexemes_append_of_endsLine {s : String} (ended : endsLine s = true) (t : List Char) :
    Lexer.lexemes .initial (s.toList ++ t) =
      Lexer.lexemes .initial s.toList ++ Lexer.lexemes .initial t := by
  cases last : (tokenize s).getLast? with
  | none =>
    have empty : s = "" := by rw [← concat_tokenize s, List.getLast?_eq_none_iff.mp last, Token.concat_nil]
    subst empty
    simp [Lexer.lexemes]
  | some e =>
    have newline : e.kind = .newline := by simpa [endsLine, last, Token.isNewline] using ended
    have kinds : (tokenize s).map Token.kind = (Lexer.lexemes .initial s.toList).map Prod.fst :=
      Token.map_kind_place 1 _
    apply Lexer.lexemes_append
    rw [Lexer.EndsLine, ← List.getLast?_map, ← kinds, List.getLast?_map, last, Option.map_some, newline]

theorem place_append_of_endsLine {s : String} (ended : endsLine s = true) (t : List Char) :
    Token.place 1 (Lexer.lexemes .initial (s.toList ++ t)) = tokenize s ++
      (Token.place 1 (Lexer.lexemes .initial t)).map (Token.below (Text.feeds s.toList)) := by
  rw [lexemes_append_of_endsLine ended, Token.place_append, Lexer.lexemes_flatten, Token.place_below]
  rfl

/-- Behind a text that is empty or ends with a line end, the tokens of another text are its own, moved
down by the line feeds before it. -/
theorem tokenize_append_line {s : String} (ended : endsLine s = true) (t : String) :
    tokenize (s ++ t) = tokenize s ++ (tokenize t).map (Token.below (Text.feeds s.toList)) := by
  rw [tokenize, String.toList_append]
  exact place_append_of_endsLine ended t.toList

/-- A transposed name and a closed block comment, with a quote behind them that begins a string. -/
theorem tokenize_append_closed_block :
    endsLine "a'\n%\x7b\nb\n%\x7d\r\n" = true ∧
      tokenize ("a'\n%\x7b\nb\n%\x7d\r\n" ++ "'c'\n") =
        tokenize "a'\n%\x7b\nb\n%\x7d\r\n" ++ [⟨.string, "'c'", 5⟩, ⟨.newline, "\n", 5⟩] := by
  have ended : endsLine "a'\n%\x7b\nb\n%\x7d\r\n" = true := by decide +kernel
  refine ⟨ended, (tokenize_append_line ended "'c'\n").trans ?_⟩
  exact congrArg _ (by decide +kernel)

end MatlabOutline
