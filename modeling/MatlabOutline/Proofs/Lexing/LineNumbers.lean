import MatlabOutline.Token.Numbered
import MatlabOutline.Proofs.Lexing.Lines

/-!
Lines in 32 bits. With fewer than `2 ^ 32 - 1` line ends no sum overflows, and the numbered tokens cover
their source (`numberedTokens_cover_source`); with one more the line behind the last line end has no number.
-/

namespace MatlabOutline

namespace Overflow

theorem add_of_lt (o : Overflow) {a b : UInt32} (fits : a.toNat + b.toNat < UInt32.size) :
    o.add a b = some (a + b) := by
  cases o with
  | stops => exact if_pos fits
  | wraps => rfl

theorem add_stops_of_le {a b : UInt32} (beyond : UInt32.size ≤ a.toNat + b.toNat) :
    stops.add a b = none :=
  if_neg (Nat.not_lt.mpr beyond)

/-- A sum that fits, of a number and a count. -/
theorem add_ofNat (o : Overflow) {a : UInt32} {n : Nat} (fits : a.toNat + n < UInt32.size) :
    o.add a (.ofNat n) = some (a + .ofNat n) ∧ (a + .ofNat n).toNat = a.toNat + n := by
  have small : (UInt32.ofNat n).toNat = n := UInt32.toNat_ofNat_of_lt' (by omega)
  refine ⟨o.add_of_lt (by rwa [small]), ?_⟩
  rw [UInt32.toNat_add, small]
  exact Nat.mod_eq_of_lt fits

end Overflow

namespace NumberedToken

@[simp] theorem concat_token (ts : List NumberedToken) : Token.concat (ts.map token) = concat ts := by
  simp [Token.concat, concat, token, Function.comp_def]

@[simp] theorem isNewline_token (t : NumberedToken) : t.token.isNewline = t.isNewline :=
  rfl

/-- The last line of a token has a number if it fits. -/
theorem endLine_eq (o : Overflow) {t : NumberedToken} (fits : t.token.endLine < UInt32.size) :
    ∃ last, t.endLine o = some last ∧ last.toNat = t.token.endLine := by
  unfold endLine
  unfold Token.endLine at fits ⊢
  rw [isNewline_token] at fits ⊢
  by_cases newline : t.isNewline = true
  · rw [if_pos newline, if_pos newline]
    exact ⟨t.line, rfl, rfl⟩
  · rw [if_neg newline] at fits
    obtain ⟨sum, value⟩ := o.add_ofNat fits
    rw [if_neg newline, if_neg newline]
    exact ⟨_, sum, value⟩

/-- Lexemes are numbered without overflow as far as their lines fit. -/
theorem place_eq (o : Overflow) {line : UInt32} {xs : List (TokenKind × List Char)}
    (few : line.toNat + Text.feeds (spelled xs) < UInt32.size) :
    ∃ ts, place o line xs = some ts ∧ ts.map token = Token.place line.toNat xs := by
  induction xs generalizing line with
  | nil => exact ⟨[], rfl, rfl⟩
  | cons x xs ih =>
    obtain ⟨kind, cs⟩ := x
    simp only [spelled_cons, Text.feeds_append] at few
    obtain ⟨sum, value⟩ := o.add_ofNat (a := line) (n := Text.feeds cs) (by omega)
    have fewer : (line + .ofNat (Text.feeds cs)).toNat + Text.feeds (spelled xs) < UInt32.size := by
      omega
    obtain ⟨ts, placed, same⟩ := ih fewer
    refine ⟨⟨kind, String.ofList cs, line⟩ :: ts, ?_, ?_⟩
    · simp only [place, sum, placed, Option.bind_eq_bind, Option.bind_some]
      rfl
    · rw [List.map_cons, same, value]
      rfl

/-- With sums that are checked, no line beyond the bound is counted. -/
theorem place_stops {line : UInt32} {xs : List (TokenKind × List Char)}
    (each : ∀ x ∈ xs, Text.feeds x.2 < UInt32.size)
    (many : UInt32.size ≤ line.toNat + Text.feeds (spelled xs)) : place .stops line xs = none := by
  induction xs generalizing line with
  | nil => exact absurd line.toNat_lt (Nat.not_lt.mpr many)
  | cons x xs ih =>
    obtain ⟨kind, cs⟩ := x
    obtain ⟨first, others⟩ := List.forall_mem_cons.mp each
    simp only [spelled_cons, Text.feeds_append] at many
    by_cases fits : line.toNat + Text.feeds cs < UInt32.size
    · obtain ⟨sum, value⟩ := Overflow.stops.add_ofNat fits
      have more : UInt32.size ≤ (line + .ofNat (Text.feeds cs)).toNat + Text.feeds (spelled xs) := by
        omega
      have further := ih others more
      simp only [place, sum, further, Option.bind_eq_bind, Option.bind_some, Option.bind_none]
    · have stops : Overflow.stops.add line (.ofNat (Text.feeds cs)) = none := by
        apply Overflow.add_stops_of_le
        rw [UInt32.toNat_ofNat_of_lt' first]
        exact Nat.not_lt.mp fits
      simp only [place, stops, Option.bind_eq_bind, Option.bind_none]

/-- Where sums wrap, the line of the last token is the count of the line ends before it in 32 bits. -/
theorem place_wraps_concat (line : UInt32) (xs : List (TokenKind × List Char)) (kind : TokenKind)
    (cs : List Char) : ∃ ts, concat ts = String.ofList (spelled xs) ∧
      place .wraps line (xs ++ [(kind, cs)]) =
        some (ts ++ [⟨kind, String.ofList cs, line + .ofNat (Text.feeds (spelled xs))⟩]) := by
  induction xs generalizing line with
  | nil => exact ⟨[], rfl, by simp [place, Overflow.add, Text.feeds]⟩
  | cons x xs ih =>
    obtain ⟨first, ds⟩ := x
    obtain ⟨ts, whole, placed⟩ := ih (line + .ofNat (Text.feeds ds))
    refine ⟨⟨first, String.ofList ds, line⟩ :: ts, ?_, ?_⟩
    · simp only [concat, List.map_cons, String.join_cons] at whole ⊢
      rw [whole, spelled_cons, String.ofList_append]
    · simp only [List.cons_append, place, Overflow.add, placed, Option.bind_eq_bind, Option.bind_some,
        spelled_cons, Text.feeds_append, UInt32.ofNat_add, UInt32.add_assoc]
      rfl

end NumberedToken

theorem endLine_le_of_mem_tokenize {source : String} {t : Token} (member : t ∈ tokenize source) :
    t.endLine ≤ 1 + Text.feeds source.toList := by
  obtain ⟨before, after, cut⟩ := List.append_of_mem member
  have line := line_of_tokenize cut
  have whole := congrArg (Text.feeds ·.toList) (concat_tokenize source)
  simp only [cut, Token.concat_append, Token.concat_cons, String.toList_append, Text.feeds_append] at whole
  unfold Token.endLine
  split <;> omega

/-- On a text with fewer than `2 ^ 32 - 1` line ends the numbered tokens are those of `tokenize`. -/
theorem numberedTokens_eq (o : Overflow) {source : String}
    (few : Text.feeds source.toList < UInt32.size - 1) :
    ∃ ts, numberedTokens o source = some ts ∧ ts.map NumberedToken.token = tokenize source := by
  have text : spelled (Lexer.lexemes .initial source.toList) = source.toList :=
    Lexer.lexemes_flatten .initial source.toList
  have first : (1 : UInt32).toNat = 1 := rfl
  apply NumberedToken.place_eq o
  rw [text, first]
  omega

/-- Lexing a text with fewer than `2 ^ 32 - 1` line ends loses nothing, and every token stands on its
line of the text, whether sums are checked or not. -/
theorem numberedTokens_cover_source (o : Overflow) (source : String)
    (few : Text.feeds source.toList < UInt32.size - 1) :
    ∃ ts, numberedTokens o source = some ts ∧ ts.map NumberedToken.token = tokenize source ∧
      (∀ t ∈ ts, t.text ≠ "") ∧
      NumberedToken.concat ts = source ∧
      (∀ t after, ts = t :: after → t.line = 1) ∧
      (∀ before t u after, ts = before ++ t :: u :: after → ∃ last, t.endLine o = some last ∧
        u.line.toNat = if t.isNewline then last.toNat + 1 else last.toNat) ∧
      ∀ before t after, ts = before ++ t :: after →
        t.line.toNat = 1 + Text.feeds (NumberedToken.concat before).toList := by
  obtain ⟨ts, numbered, same⟩ := numberedTokens_eq o few
  have whole := concat_tokenize source
  rw [← same, NumberedToken.concat_token] at whole
  have counted {before after : List NumberedToken} {t : NumberedToken} (cut : ts = before ++ t :: after) :
      t.line.toNat = 1 + Text.feeds (NumberedToken.concat before).toList := by
    have tokens : tokenize source =
        before.map NumberedToken.token ++ t.token :: after.map NumberedToken.token := by
      rw [← same, cut, List.map_append, List.map_cons]
    have line := line_of_tokenize tokens
    rwa [NumberedToken.concat_token] at line
  refine ⟨ts, numbered, same, ?_, whole, ?_, ?_, fun _ _ _ => counted⟩
  · intro t member
    have placed : t.token ∈ tokenize source := same ▸ List.mem_map_of_mem member
    exact text_ne_of_mem_tokenize placed
  · intro t after cut
    have first := counted (show ts = [] ++ t :: after from cut)
    exact UInt32.toNat_inj.mp first
  · intro before t u after cut
    have tokens : tokenize source =
        before.map NumberedToken.token ++ t.token :: u.token :: after.map NumberedToken.token := by
      simp [← same, cut]
    have chain := line_after_token tokens
    have bound := endLine_le_of_mem_tokenize (tokens ▸ List.mem_append_right _ List.mem_cons_self)
    obtain ⟨last, ended, same⟩ := NumberedToken.endLine_eq o (show t.token.endLine < UInt32.size by omega)
    rw [NumberedToken.isNewline_token, ← same] at chain
    exact ⟨last, ended, chain⟩

/-- The law at a text with a block comment over three lines and both ways to end a line. -/
theorem numberedTokens_cover_block_comment :
    ∃ name feed block ending last : NumberedToken,
      numberedTokens .stops "a\n%\x7b\nb\n%\x7d\r\nc" = some [name, feed, block, ending, last] ∧
      name.line = 1 ∧ block.text ≠ "" ∧ ending.line.toNat = 4 ∧ last.line.toNat = 5 ∧
      1 + Text.feeds (NumberedToken.concat [name, feed, block, ending]).toList = 5 := by
  obtain ⟨ts, numbered, _, filled, _, first, chained, counted⟩ :=
    numberedTokens_cover_source .stops "a\n%\x7b\nb\n%\x7d\r\nc" (by decide)
  have cut : numberedTokens .stops "a\n%\x7b\nb\n%\x7d\r\nc" =
      some [⟨.name, "a", 1⟩, ⟨.newline, "\n", 1⟩, ⟨.comment, "%\x7b\nb\n%\x7d", 2⟩,
        ⟨.newline, "\r\n", 4⟩, ⟨.name, "c", 5⟩] := by
    decide +kernel
  obtain rfl := Option.some.inj (numbered.symm.trans cut)
  refine ⟨_, _, _, _, _, cut, first _ _ rfl, filled _ (by simp), ?_, ?_, ?_⟩
  · obtain ⟨last, ended, line⟩ := chained [_, _] _ _ [_] rfl
    obtain rfl : 4 = last := Option.some.inj (Eq.trans (by decide) ended)
    exact line
  · obtain ⟨last, ended, line⟩ := chained [_, _, _] _ _ [] rfl
    obtain rfl : 4 = last := Option.some.inj (Eq.trans (by decide) ended)
    exact line
  · exact (counted [_, _, _, _] _ [] rfl).symm

/-- A name below `n` line ends. -/
def nameBelow (n : Nat) : String :=
  String.ofList (List.replicate n '\n' ++ ['x'])

/-- Line ends at the front of a text are lexemes of their own. -/
theorem lexemes_feeds (n : Nat) (cs : List Char) : Lexer.lexemes .initial (List.replicate n '\n' ++ cs) =
    List.replicate n (.newline, ['\n']) ++ Lexer.lexemes .initial cs := by
  induction n with
  | zero => rfl
  | succ n ih =>
    have first : Lexer.step .initial '\n' (List.replicate n '\n' ++ cs) =
        ⟨.newline, ⟨[], List.replicate n '\n' ++ cs⟩, .initial⟩ := rfl
    rw [List.replicate_succ, List.replicate_succ, List.cons_append, List.cons_append, ← ih,
      Lexer.lexemes_of_step first]

theorem lexemes_nameBelow (n : Nat) : Lexer.lexemes .initial (nameBelow n).toList =
    List.replicate n (.newline, ['\n']) ++ [(.name, ['x'])] := by
  have word : Lexer.lexemes .initial ['x'] = [(.name, ['x'])] := by decide +kernel
  rw [nameBelow, String.toList_ofList, lexemes_feeds, word]

theorem spelled_feeds (n : Nat) :
    spelled (List.replicate n (.newline, ['\n'])) = List.replicate n '\n' := by
  simp [spelled]

theorem feeds_nameBelow (n : Nat) : Text.feeds (nameBelow n).toList = n := by
  simp [nameBelow, Text.feeds, List.count_append]

/-- The line of a name below so many line ends has no number. -/
theorem numberedTokens_nameBelow {n : Nat} (full : n + 1 = UInt32.size) :
    numberedTokens .stops (nameBelow n) = none ∧
      ∃ before, numberedTokens .wraps (nameBelow n) = some (before ++ [⟨.name, "x", 0⟩]) ∧
        Text.feeds (NumberedToken.concat before).toList = n := by
  have first : (1 : UInt32).toNat = 1 := rfl
  rw [numberedTokens, numberedTokens, lexemes_nameBelow]
  constructor
  · apply NumberedToken.place_stops
    · have short : ∀ cs ∈ [['\n'], ['x']], Text.feeds cs < UInt32.size := by decide
      intro x member
      rcases List.mem_append.mp member with feed | name
      · rw [List.eq_of_mem_replicate feed]
        exact short _ (by simp)
      · rw [List.mem_singleton.mp name]
        exact short _ (by simp)
    · simp only [← full, first, spelled, List.map_append, List.flatten_append, Text.feeds_append]
      simp [Text.feeds, Nat.add_comm]
  · obtain ⟨before, whole, placed⟩ := NumberedToken.place_wraps_concat 1
      (List.replicate n (.newline, ['\n'])) .name ['x']
    have none : (1 : UInt32) + .ofNat (Text.feeds (spelled (List.replicate n (.newline, ['\n'])))) = 0 := by
      rw [spelled_feeds]
      apply UInt32.toNat_inj.mp
      simp [Text.feeds, UInt32.toNat_add, Nat.add_comm 1, full]
    refine ⟨before, by rw [placed, none], ?_⟩
    rw [whole, String.toList_ofList, spelled_feeds]
    simp [Text.feeds]

/-- A text with fewer than `2 ^ 32` line ends on which lexing stops, if sums are checked, or puts a
token on line 0, which is on line `2 ^ 32` of the text. -/
theorem numberedTokens_beyond :
    Text.feeds (nameBelow 4294967295).toList < UInt32.size ∧
      numberedTokens .stops (nameBelow 4294967295) = none ∧
      ∃ before, numberedTokens .wraps (nameBelow 4294967295) = some (before ++ [⟨.name, "x", 0⟩]) ∧
        1 + Text.feeds (NumberedToken.concat before).toList = UInt32.size := by
  obtain ⟨stops, before, wraps, count⟩ := numberedTokens_nameBelow (n := 4294967295) rfl
  rw [feeds_nameBelow]
  exact ⟨by decide, stops, before, wraps, by rw [count]⟩

end MatlabOutline
