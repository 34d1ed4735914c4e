import Mathlib.Data.String.Basic
import MatlabOutline.SourceText
import MatlabOutline.Proofs.Lexing.EndedText
import MatlabOutline.Proofs.Lexing.LineCuts

/-!
The lines of a source text and the lines of its tokens. Main statement: the table of the bytes at which lines begin
gives the lines of the text, and the line of a token, which counts the line feeds before it, is the one on which the
token stands (`line?_of_token`).
-/

namespace MatlabOutline

open Lexer

namespace Text

theorem pieces_ne_nil {cs : List Char} (filled : cs ≠ []) : pieces cs ≠ [] := by
  intro none
  exact filled (by rw [← flatten_pieces cs, none, List.flatten_nil])

/-- Text in front of a line belongs to its first piece. -/
theorem pieces_cons_append {w x p : List Char} {ps : List (List Char)} (within : '\n' ∉ w)
    (cut : pieces x = p :: ps) : pieces (w ++ x) = (w ++ p) :: ps := by
  induction w with
  | nil => exact cut
  | cons c w ih =>
    rw [List.mem_cons, not_or] at within
    rw [List.cons_append, pieces.eq_3 _ _ (Ne.symm within.1), ih within.2]
    rfl

/-- Whole lines are cut into as many pieces as they have line feeds, whatever stands behind them. -/
theorem pieces_whole_lines {w : List Char} (ended : w.getLast?.all (· == '\n') = true) (x : List Char) :
    pieces (w ++ x) = pieces w ++ pieces x ∧ (pieces w).length = feeds w := by
  fun_induction pieces w with
  | case1 => exact ⟨rfl, rfl⟩
  | case2 r ih =>
    have last : r.getLast?.all (· == '\n') = true := by
      rcases r with _ | ⟨d, r⟩
      · rfl
      · simpa using ended
    obtain ⟨cut, count⟩ := ih last
    exact ⟨by rw [List.cons_append, pieces.eq_2, cut, List.cons_append], by simpa [feeds] using count⟩
  | case3 c r other none ih =>
    obtain rfl : r = [] := by
      by_contra filled
      exact pieces_ne_nil filled none
    exact (other (by simpa using ended)).elim
  | case4 c r other p ps some ih =>
    have last : r.getLast?.all (· == '\n') = true := by
      rcases r with _ | ⟨d, r⟩
      · rfl
      · simpa using ended
    obtain ⟨cut, count⟩ := ih last
    rw [some] at cut count
    have away : ¬ c = '\n' := other
    refine ⟨by rw [List.cons_append, pieces.eq_3 _ _ other, cut]; rfl, ?_⟩
    simpa [feeds, List.count_cons, away] using count

/-- Only the last line end is removed, and text in front of it does not become a part of it. -/
theorem chomp_append_of_noBreak {a x : List Char} (apart : NoBreak a x) (filled : x ≠ []) :
    chomp (a ++ x) = a ++ chomp x := by
  obtain ⟨front, c, rfl⟩ := (List.eq_nil_or_concat x).resolve_left filled
  rw [List.concat_eq_append] at *
  by_cases feed : c = '\n'
  · subst feed
    obtain rfl | ⟨line, d, rfl⟩ := List.eq_nil_or_concat front
    · exact chomp_append (fun last => apart last rfl) (by simp)
    · by_cases carriage : d = '\r' <;> simp [chomp, carriage]
  · simp [chomp, feed]

/-- The first line of a text with something in front of it. -/
theorem head?_lines_append {w x : List Char} (within : '\n' ∉ w) (apart : NoBreak w x) (filled : x ≠ []) :
    (lines (w ++ x)).head? = (lines x).head?.map (w ++ ·) := by
  obtain ⟨p, ps, cut⟩ := List.exists_cons_of_ne_nil (pieces_ne_nil filled)
  have whole : x = p ++ ps.flatten := by rw [← List.flatten_cons, ← cut, flatten_pieces]
  have first : p ≠ [] := filled_of_mem_pieces p (cut ▸ List.mem_cons_self)
  have before : NoBreak w p := fun last head => by
    refine apart last ?_
    rw [whole, List.head?_append, head]
    rfl
  rw [lines, lines, pieces_cons_append within cut, cut]
  simp only [List.map_cons, List.head?_cons, Option.map_some, chomp_append_of_noBreak before first]

/-- What stands on the last line of a text, if that has no line end. -/
def lastLine (cs : List Char) : List Char :=
  cs.rtakeWhile (· != '\n')

theorem feed_not_mem_lastLine (cs : List Char) : '\n' ∉ lastLine cs :=
  fun feed => by simpa using List.mem_rtakeWhile_imp feed

/-- Behind a text goes on the line that the line feeds of the text count. -/
theorem getElem?_lines_feeds (cs x : List Char) : (lines (cs ++ x))[feeds cs]? = (lines (lastLine cs ++ x)).head? := by
  have split : cs.rdropWhile (· != '\n') ++ lastLine cs = cs := List.rdropWhile_append_rtakeWhile
  have ended : (cs.rdropWhile (· != '\n')).getLast?.all (· == '\n') = true := by
    rw [Option.all_eq_true]
    intro c last
    obtain ⟨filled, rfl⟩ := List.mem_getLast?_eq_getLast last
    simpa using List.rdropWhile_last_not _ _ filled
  obtain ⟨cut, count⟩ := pieces_whole_lines ended (lastLine cs ++ x)
  have number : feeds cs = (pieces (cs.rdropWhile (· != '\n'))).length := by
    have none : feeds (lastLine cs) = 0 := List.count_eq_zero.mpr (feed_not_mem_lastLine cs)
    rw [← congrArg feeds split, feeds_append, count, none, Nat.add_zero]
  have whole : cs ++ x = cs.rdropWhile (· != '\n') ++ (lastLine cs ++ x) := by rw [← List.append_assoc, split]
  rw [number, lines, whole, cut, List.map_append, List.getElem?_append_right (by simp)]
  simp [lines, List.head?_eq_getElem?]

/-- The line that a text begins on shows the first line of the text. -/
theorem exists_head?_lines {w x line : List Char} (apart : NoBreak w x)
    (first : (lines w).head? = some line) : ∃ rest, (lines (w ++ x)).head? = some (line ++ rest) := by
  by_cases feed : '\n' ∈ w
  · obtain ⟨body, below, rfl, within⟩ := List.eq_append_cons_of_mem feed
    refine ⟨[], ?_⟩
    rw [lines, pieces_append within] at first
    rw [List.append_assoc, List.cons_append, lines, pieces_append within, List.append_nil]
    exact first
  · have filled : w ≠ [] := by
      rintro rfl
      simp [lines, pieces] at first
    obtain rfl : w = line := by
      simpa [lines, pieces_of_not_mem filled feed, chomp_of_not_mem feed] using first
    by_cases none : x = []
    · exact ⟨[], by rw [none, List.append_nil, first]⟩
    · obtain ⟨p, ps, cut⟩ := List.exists_cons_of_ne_nil (pieces_ne_nil none)
      exact ⟨chomp p, by rw [head?_lines_append feed apart none, lines, cut]; rfl⟩

end Text

namespace Lexer

open Scan

theorem NoBreak.append {a b y : List Char} (front : b = [] → NoBreak a y) (back : NoBreak b y) :
    NoBreak (a ++ b) y := by
  rcases List.eq_nil_or_concat b with rfl | ⟨b, c, rfl⟩
  · simpa using front rfl
  · intro last
    exact back (by simpa using last)

theorem NoBreak.of_append {a b y : List Char} (apart : NoBreak (a ++ b) y) : NoBreak b y :=
  fun last => apart (by rw [List.getLast?_append, last]; rfl)

theorem noBreak_lineEnd (cs y : List Char) : NoBreak (lineEnd cs).taken y := by
  fun_cases lineEnd cs <;> simp [NoBreak]

theorem noBreak_lineBody (r : List Char) : NoBreak (lineBody r).taken (lineBody r).rest := by
  induction r with
  | nil => simp [lineBody, NoBreak]
  | cons c r ih =>
    rw [lineBody_cons]
    split
    · simp [NoBreak]
    · next going =>
      refine NoBreak.cons ih fun none => ?_
      have whole : (lineBody r).rest = r := by simpa [Split.whole, none] using lineBody_whole r
      intro last head
      simp_all [atLineEnd, Split.push]

theorem noBreak_prepend {w : List Char} {s : Split} (front : NoBreak w s.whole) (back : NoBreak s.taken s.rest) :
    NoBreak (s.prepend w).taken (s.prepend w).rest :=
  .append (fun none => by simpa [Split.whole, Split.prepend, none] using front) back

theorem noBreak_blockLines (depth : Nat) (cs : List Char) :
    NoBreak (blockLines depth cs).taken (blockLines depth cs).rest := by
  fun_induction blockLines depth cs with
  | case1 => simp [NoBreak]
  | case2 depth cs ending _ line inner _ =>
    exact noBreak_prepend (noBreak_lineEnd cs _) (noBreak_lineBody ending.rest)
  | case3 depth cs ending _ line inner _ ih =>
    refine noBreak_prepend ?_ ih
    rw [blockLines_whole]
    exact .append (fun _ => noBreak_lineEnd cs _) (noBreak_lineBody ending.rest)

theorem noBreak_blockRest (cs : List Char) : NoBreak (blockRest cs).taken (blockRest cs).rest := by
  refine noBreak_prepend ?_ (noBreak_blockLines 1 _)
  rw [blockLines_whole]
  exact noBreak_lineBody cs

theorem noBreak_of_comment {st : LexState} {c : Char} {r : List Char} (remark : (step st c r).kind = .comment) :
    NoBreak (c :: (step st c r).split.taken) (step st c r).split.rest := by
  have first (mark : c ≠ '\r') (y : List Char) : NoBreak [c] y := noBreak_of_not_mem (by simpa using mark.symm) y
  by_cases point : c = '.'
  · subst point
    rw [step_point] at remark ⊢
    revert remark
    fun_cases dot st r
    case case1 s => exact fun _ => (noBreak_lineBody _).cons fun _ => first (by decide) _
    all_goals simp
  fun_cases step st c r
  case case4 => exact (noBreak_blockRest r).cons fun _ => first (by simp_all) _
  case case5 => exact (noBreak_lineBody r).cons fun _ => first (by simp_all) _
  case case10 =>
    have kinds := kind_word st c r
    simp_all [step]
  all_goals simp_all [step, operator]

/-- No lexeme ends within a line end. -/
theorem noBreak_lexeme (st : LexState) (c : Char) (r : List Char) :
    NoBreak (c :: (step st c r).split.taken) (step st c r).split.rest := by
  by_cases newline : (step st c r).kind = .newline
  · rcases newline_cases newline with rfl | ⟨rfl, head⟩
    · simp [step, NoBreak]
    · simp [step, head, NoBreak]
  by_cases remark : (step st c r).kind = .comment
  · exact noBreak_of_comment remark
  · exact noBreak_step remark newline

theorem noBreak_lexemes {st : LexState} {cs : List Char} {front back : List (TokenKind × List Char)}
    (cut : lexemes st cs = front ++ back) : NoBreak (spelled front) (spelled back) := by
  induction front generalizing st cs with
  | nil => simp [NoBreak]
  | cons x front ih =>
    rcases cs with _ | ⟨c, r⟩
    · simp [lexemes] at cut
    rw [lexemes, List.cons_append, List.cons.injEq] at cut
    obtain ⟨rfl, further⟩ := cut
    refine .append (fun (none : spelled front = []) => ?_) (ih further)
    have text : spelled front ++ spelled back = (step st c r).split.rest := by
      rw [← lexemes_flatten (step st c r).next (step st c r).split.rest, further]
      simp [spelled]
    have rest : spelled back = (step st c r).split.rest := by rw [← text, none, List.nil_append]
    rw [rest]
    exact noBreak_lexeme st c r

end Lexer

/-- A line end lies within one token. -/
theorem noBreak_tokenize {source : String} {front back : List Token} (cut : tokenize source = front ++ back) :
    NoBreak (Token.concat front).toList (Token.concat back).toList := by
  have lexemes := Token.map_lexeme_tokenize source
  rw [cut, List.map_append] at lexemes
  rw [← Token.spelled_lexemes, ← Token.spelled_lexemes]
  exact noBreak_lexemes lexemes.symm

namespace Text

/-- The bytes at which pieces of a text begin, the first of them at `n`. -/
def offsets (n : Nat) : List (List Char) → List Nat
  | [] => []
  | p :: ps => n :: offsets (n + String.utf8Len p) ps

theorem length_offsets (n : Nat) (ps : List (List Char)) : (offsets n ps).length = ps.length := by
  induction ps generalizing n with
  | nil => rfl
  | cons p ps ih => rw [offsets, List.length_cons, ih, List.length_cons]

/-- A piece begins behind the pieces before it. -/
theorem getElem?_offsets (n : Nat) {front back : List (List Char)} {p : List Char} :
    (offsets n (front ++ p :: back))[front.length]? = some (n + String.utf8Len front.flatten) := by
  induction front generalizing n with
  | nil => simp [offsets]
  | cons q front ih => simp [offsets, ih, Nat.add_assoc]

end Text

namespace SourceText

/-- The bytes behind line feeds are those at which the pieces begin, but for one at the end of the text. -/
theorem filter_behindFeeds (n : Nat) (cs : List Char) :
    (n :: behindFeeds n cs).filter (· < n + String.utf8Len cs) = Text.offsets n (Text.pieces cs) := by
  fun_induction Text.pieces cs generalizing n with
  | case1 => simp [behindFeeds, Text.offsets]
  | case2 r ih =>
    have bound : n + String.utf8Len ('\n' :: r) = n + 1 + String.utf8Len r := by
      rw [String.utf8Len_cons, show ('\n' : Char).utf8Size = 1 from rfl]
      omega
    rw [bound, behindFeeds, List.filter_cons_of_pos (by simp; omega)]
    exact congrArg (n :: ·) (ih (n + 1))
  | case3 c r other none ih =>
    obtain rfl : r = [] := by
      by_contra filled
      exact Text.pieces_ne_nil filled none
    have size := c.utf8Size_pos
    simp [behindFeeds, Text.offsets, size]
  | case4 c r other p ps some ih =>
    have filled : r ≠ [] := by
      rintro rfl
      simp [Text.pieces] at some
    have size := c.utf8Size_pos
    have bound : n + String.utf8Len (c :: r) = n + c.utf8Size + String.utf8Len r := by
      rw [String.utf8Len_cons]
      omega
    have inner : n + c.utf8Size < n + c.utf8Size + String.utf8Len r := by
      have := Nat.pos_of_ne_zero (mt String.utf8Len_eq_zero.mp filled)
      omega
    have next := ih (n + c.utf8Size)
    rw [some, Text.offsets, List.filter_cons_of_pos (by simpa using inner), List.cons.injEq] at next
    rw [bound, behindFeeds, if_neg other, List.filter_cons_of_pos (by simp; omega), next.2, Text.offsets,
      String.utf8Len_cons]
    congr 2
    omega

variable (s : SourceText)

theorem lineStarts_eq : s.lineStarts = Text.offsets 0 (Text.pieces s.contents.toList) := by
  rw [← filter_behindFeeds, lineStarts, String.utf8Len_toList, Nat.zero_add]

theorem lineCount_eq : s.lineCount = (Text.lines s.contents.toList).length := by
  rw [lineCount, lineStarts_eq, Text.length_offsets, Text.lines, List.length_map]

/-- The table finds the line that stands at a place in the list of lines. -/
theorem line?_succ (i : Nat) : s.line? (i + 1) = ((Text.lines s.contents.toList).map String.ofList)[i]? := by
  have whole := Text.flatten_pieces s.contents.toList
  rw [line?, lineStarts_eq, Text.lines, List.map_map, List.getElem?_map]
  generalize Text.pieces s.contents.toList = ps at whole
  rcases Nat.lt_or_ge i ps.length with within | beyond
  · obtain ⟨front, p, back, rfl, rfl⟩ : ∃ front p back, ps = front ++ p :: back ∧ front.length = i :=
      ⟨ps.take i, ps[i], ps.drop (i + 1), by simp, by simp; omega⟩
    have stop : (Text.offsets 0 (front ++ p :: back))[front.length + 1]?.getD s.contents.utf8ByteSize =
        String.utf8Len front.flatten + String.utf8Len p := by
      rcases back with _ | ⟨q, back⟩
      · rw [List.getElem?_eq_none (by simp [Text.length_offsets]), Option.getD_none, ← String.utf8Len_toList,
          ← whole]
        simp
      · have next : (Text.offsets 0 ((front ++ [p]) ++ q :: back))[(front ++ [p]).length]? = _ :=
          Text.getElem?_offsets 0
        rw [List.append_assoc, List.length_append, List.singleton_append, List.length_singleton] at next
        rw [next]
        simp
    have text : s.contents = String.ofList (front.flatten ++ p ++ back.flatten) := by
      rw [← String.ofList_toList (s := s.contents), ← whole]
      simp
    have line : String.Pos.Raw.extract s.contents ⟨String.utf8Len front.flatten⟩
        ⟨String.utf8Len front.flatten + String.utf8Len p⟩ = String.ofList p := by
      rw [text, String.extract_of_valid]
    simp [Text.getElem?_offsets, stop, line]
  · rw [List.getElem?_eq_none (by rw [Text.length_offsets]; exact beyond), List.getElem?_eq_none beyond]
    rfl

end SourceText

/-- The line that a token begins on shows the first line of its text behind what stands before it. -/
theorem exists_line_of_token {source : String} {before after : List Token} {t : Token}
    (cut : tokenize source = before ++ t :: after) : ∃ first line, (Text.lines t.text.toList).head? = some first ∧
      (Text.lines source.toList)[Text.feeds (Token.concat before).toList]? = some line ∧
      Text.lastLine (Token.concat before).toList ++ first <+: line := by
  have whole : source.toList = (Token.concat before).toList ++ (t.text.toList ++ (Token.concat after).toList) := by
    rw [← concat_tokenize source, cut]
    simp
  have filled : t.text.toList ≠ [] := by
    simpa using text_ne_of_mem_tokenize (cut ▸ List.mem_append_right before List.mem_cons_self)
  -- Neither the token nor what stands before it ends within a line end.
  have behind : NoBreak t.text.toList (Token.concat after).toList := by
    have apart : NoBreak (Token.concat (before ++ [t])).toList (Token.concat after).toList :=
      noBreak_tokenize (by simpa using cut)
    exact NoBreak.of_append (a := (Token.concat before).toList) (by simpa using apart)
  have inFront : NoBreak (Text.lastLine (Token.concat before).toList)
      (t.text.toList ++ (Token.concat after).toList) := by
    have apart := noBreak_tokenize cut
    rw [Token.concat_cons, String.toList_append,
      ← List.rdropWhile_append_rtakeWhile (p := (· != '\n')) (l := (Token.concat before).toList)] at apart
    exact apart.of_append
  obtain ⟨p, ps, pieces⟩ := List.exists_cons_of_ne_nil (Text.pieces_ne_nil filled)
  have head : (Text.lines t.text.toList).head? = some (Text.chomp p) := by rw [Text.lines, pieces]; rfl
  obtain ⟨rest, below⟩ := Text.exists_head?_lines behind head
  have line := Text.head?_lines_append (Text.feed_not_mem_lastLine _) inFront (by simp [filled])
  rw [below, Option.map_some] at line
  exact ⟨Text.chomp p, _, head, by rw [whole, Text.getElem?_lines_feeds, line], ⟨rest, List.append_assoc ..⟩⟩

/-- The lines of a source text are those of its contents, found by number, and every token stands on the line that it
has the number of: behind what stands there before it comes its text, or the first line of it. -/
theorem line?_of_token (s : SourceText) :
    s.lineCount = (Text.lines s.contents.toList).length ∧
      (∀ i, s.line? (i + 1) = ((Text.lines s.contents.toList).map String.ofList)[i]?) ∧
      s.line? 0 = none ∧ (∀ n, s.lineCount < n → s.line? n = none) ∧
      ∀ before t after, tokenize s.contents = before ++ t :: after →
        ∃ first line, (Text.lines t.text.toList).head? = some first ∧ s.line? t.line = some line ∧
          Text.lastLine (Token.concat before).toList ++ first <+: line.toList := by
  refine ⟨s.lineCount_eq, s.line?_succ, rfl, fun n beyond => ?_, fun before t after cut => ?_⟩
  · obtain ⟨i, rfl⟩ : ∃ i, n = i + 1 := ⟨n - 1, by omega⟩
    rw [s.lineCount_eq] at beyond
    rw [s.line?_succ, List.getElem?_eq_none (by simpa using Nat.lt_succ_iff.mp beyond)]
  · obtain ⟨first, line, head, here, shown⟩ := exists_line_of_token cut
    refine ⟨first, String.ofList line, head, ?_, by rwa [String.toList_ofList]⟩
    rw [line_of_tokenize cut, Nat.add_comm, s.line?_succ, List.getElem?_map, here]
    rfl

end MatlabOutline
