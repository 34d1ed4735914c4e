import MatlabOutline.Proofs.Checked.Bytes
import MatlabOutline.Proofs.Docstring.Lines
import MatlabOutline.Proofs.Lexing.LineNumbers

/-!
Lexing by byte offsets, where every cut, byte, difference and line number is checked. On a text with
fewer than `2 ^ 32 - 1` line ends no check fails, and the result is that of the lexer:
`Checked.tokenize_eq`.
-/

namespace MatlabOutline

namespace Scan

/-- A text is one line, or a line with its line end before further lines. -/
theorem lineBody_cases (cs : List Char) :
    ('\n' ∉ cs ∧ lineBody cs = ⟨cs, []⟩) ∨
      ∃ (line : List Char) (ending : LineEnding) (below : List Char),
        '\n' ∉ line ∧ (ending = .feed → line.getLast? ≠ some '\r') ∧
        cs = line ++ ending.chars ++ below ∧ lineBody cs = ⟨line, ending.chars ++ below⟩ := by
  fun_induction lineBody cs with
  | case1 => exact .inl ⟨by simp, rfl⟩
  | case2 r => exact .inr ⟨[], .feed, r, by simp, by simp, rfl, rfl⟩
  | case3 r => exact .inr ⟨[], .carriage, r, by simp, by simp, rfl, rfl⟩
  | case4 c r feed carriage ih =>
    rcases ih with ⟨single, body⟩ | ⟨line, ending, below, within, ended, rfl, body⟩
    · exact .inl ⟨by simp [Ne.symm feed, single], by rw [body]; rfl⟩
    · refine .inr ⟨c :: line, ending, below, by simp [Ne.symm feed, within], ?_, by simp, by rw [body]; rfl⟩
      rintro rfl
      rcases line with _ | ⟨d, line⟩
      · have other : c ≠ '\r' := fun same => carriage below same rfl
        simpa using other
      · simpa using ended rfl

theorem trim_opener {r : List Char} (opens : opensBlockComment r = true) :
    Text.trim (lineBody ('%' :: r)).taken = ['%', '\x7b'] := by
  rw [opensBlockComment_eq, Bool.and_eq_true, beq_iff_eq] at opens
  rw [lineBody_cons, if_neg (by simp [atLineEnd])]
  exact (Text.trim_opener_iff _).mpr opens

theorem lineEnd_chars (ending : LineEnding) (below : List Char) :
    lineEnd (ending.chars ++ below) = ⟨ending.chars, below⟩ := by
  cases ending <;> rfl

end Scan

namespace Text

theorem chomp_line {line : List Char} {ending : LineEnding}
    (ended : ending = .feed → line.getLast? ≠ some '\r') : chomp (line ++ ending.chars) = line := by
  cases ending with
  | carriage => simp [chomp, LineEnding.chars]
  | feed =>
    rcases line.eq_nil_or_concat' with rfl | ⟨front, c, rfl⟩
    · rfl
    · have other : c ≠ '\r' := by simpa using ended rfl
      simp [chomp, LineEnding.chars, other]

theorem pieces_line {line : List Char} (ending : LineEnding) (within : '\n' ∉ line)
    (below : List Char) :
    pieces (line ++ ending.chars ++ below) = (line ++ ending.chars) :: pieces below := by
  cases ending with
  | feed => simpa [LineEnding.chars] using pieces_append within below
  | carriage =>
    have inside : '\n' ∉ line ++ ['\r'] := by simp [within]
    simpa [LineEnding.chars] using pieces_append inside below

end Text

namespace Checked

/-- The text from the end of its first line. -/
def restOfLine (cs : List Char) : Option (List Char) :=
  match find '\n' cs with
  | none => some []
  | some 0 => onFrom 0 cs
  | some (n + 1) => do
    let byte ← (bytes cs)[n]?
    if byte = 13 then onFrom n cs else onFrom (n + 1) cs

/-- Whether a `%`, which `cs` follows, opens a block comment. -/
def opensBlockComment (cs : List Char) : Option Bool :=
  match cs with
  | '\x7b' :: r => do
    let rest ← restOfLine r
    let length ← minus (size r) (size rest)
    let line ← upTo length r
    return Text.allBlank line
  | _ => some false

/-- The nesting of block comments after a line. -/
def nestAfter (nest : Nat) (line : List Char) : Option Nat :=
  if Text.trim line = ['%', '\x7b'] then some (nest + 1)
  else if Text.trim line = ['%', '\x7d'] then minus nest 1
  else some nest

/-- Passes the lines `ls` of a block comment with `nest` blocks open, which begin at the byte
`offset` of `input`, and gives what follows the line that closes it. -/
def blockEnd (input : List Char) (nest offset : Nat) : List (List Char) → Option (List Char)
  | [] => some []
  | l :: ls => do
    let content := Text.chomp l
    let inner ← nestAfter nest content
    if inner = 0 then onFrom (offset + size content) input
    else blockEnd input inner (offset + size l) ls

/-- What follows the block comment at the front of `input`. -/
def skipBlockComment (input : List Char) : Option (List Char) :=
  blockEnd input 0 0 (Text.pieces input)

/-- What follows a comment, whose `%` comes right before `r`. -/
def commentRest (lineStart : Bool) (r : List Char) : Option (List Char) :=
  if lineStart then
    (opensBlockComment r).bind fun block =>
      if block then skipBlockComment ('%' :: r) else restOfLine r
  else restOfLine r

/-- What follows a word that begins with `c` and goes on in `r`, where the word is cut out first. -/
def word (st : LexState) (c : Char) (r : List Char) : Option LexStep := do
  let length ← minus (size (c :: r)) (size (Scan.run isIdentRest r).rest)
  let spelled ← upTo length (c :: r)
  if spelled = c :: (Scan.run isIdentRest r).taken then some (Lexer.word st c r) else none

/-- The kind of the lexeme that begins with `c` and goes on in `r`, what follows it, and the state
behind it. -/
def step (st : LexState) (c : Char) (r : List Char) : Option (TokenKind × List Char × LexState) :=
  if c = '\r' ∧ r.head? = some '\n' then do
    let rest ← onFrom 1 r
    return (.newline, rest, .initial)
  else if c = '%' then do
    let rest ← commentRest st.lineStart r
    return (.comment, rest, st.plain)
  else if c = '.' ∧ ['.', '.'].isPrefixOf r then do
    let rest ← restOfLine r
    return (.comment, rest, st.plain)
  else do
    let s ← if isIdentStart c then word st c r else some (Lexer.step st c r)
    return (s.kind, s.split.rest, s.next)

/-- The lexeme at the start of a text, cut out by the number of its bytes, and how the lexer goes on
from there. -/
def lexeme (st : LexState) (c : Char) (r : List Char) :
    Option ((TokenKind × List Char) × LexState × List Char) := do
  let (kind, rest, next) ← step st c r
  let length ← minus (size (c :: r)) (size rest)
  let (taken, behind) ← cut length (c :: r)
  return ((kind, taken), next, behind)

/-- The lexemes of a text. A lexeme that takes nothing counts as a failure too, since the lexer would
not come to an end then. -/
def lexemes (st : LexState) (cs : List Char) : Option (List (TokenKind × List Char)) :=
  match cs with
  | [] => some []
  | c :: r => do
    let first ← lexeme st c r
    if first.2.2.length ≤ r.length then
      let further ← lexemes first.2.1 first.2.2
      return first.1 :: further
    else none
termination_by cs.length

/-- A sum of line numbers, which must have 32 bits. -/
def plus (a b : Nat) : Option Nat :=
  (Overflow.stops.add (.ofNat a) (.ofNat b)).map UInt32.toNat

/-- The line on which a token ends. -/
def endLine (t : Token) : Option Nat :=
  if t.isNewline then some t.line else plus t.line (Text.feeds t.text.toList)

/-- The tokens of a text. Their lines are counted in 32 bits. -/
def tokenize (source : String) : Option (List Token) := do
  let xs ← lexemes .initial source.toList
  let ts ← NumberedToken.place .stops 1 xs
  return ts.map NumberedToken.token

theorem find_append {before : List Char} {c : Char} (first : c ∉ before) (behind : List Char) :
    find c (before ++ c :: behind) = some (size before) := by
  have taken : (before ++ c :: behind).takeWhile (· != c) = before := by
    rw [List.takeWhile_append_of_pos]
    · simp
    · intro d member
      simpa using fun same : d = c => first (same ▸ member)
  rw [find, if_pos (by simp), taken]

/-- What follows the first line begins before its line feed, or before the carriage return that
stands right before that. -/
theorem restOfLine_feed {line : List Char} (within : '\n' ∉ line) (below : List Char) :
    restOfLine (line ++ '\n' :: below) =
      if line.getLast? = some '\r' then some ('\r' :: '\n' :: below) else some ('\n' :: below) := by
  rw [restOfLine, find_append within]
  rcases line.eq_nil_or_concat' with rfl | ⟨front, c, rfl⟩
  · exact onFrom_append [] ('\n' :: below)
  · obtain ⟨n, byte, place, here, carriage⟩ := exists_byte_before front c ('\n' :: below)
    have behind := onFrom_append (front ++ [c]) ('\n' :: below)
    rw [place] at behind ⊢
    simp only [here, Option.bind_eq_bind, Option.bind_some, List.getLast?_concat, Option.some.injEq]
    by_cases same : c = '\r'
    · obtain rfl : n = size front := by simpa [same, size, show '\r'.utf8Size = 1 from rfl] using place.symm
      rw [if_pos (carriage.mpr same), if_pos same, List.append_assoc, onFrom_append, same]
      rfl
    · rw [if_neg (mt carriage.mp same), if_neg same, behind]

theorem restOfLine_eq (cs : List Char) : restOfLine cs = some (Scan.lineBody cs).rest := by
  rcases Scan.lineBody_cases cs with ⟨single, body⟩ | ⟨line, ending, below, within, ended, rfl, body⟩
  · rw [restOfLine, find, if_neg single, body]
  · rw [body]
    cases ending with
    | carriage =>
      have inside : '\n' ∉ line ++ ['\r'] := by simp [within]
      have rest := restOfLine_feed inside below
      simpa [LineEnding.chars] using rest
    | feed =>
      have rest := restOfLine_feed within below
      simpa [LineEnding.chars, ended rfl] using rest

theorem opensBlockComment_eq (cs : List Char) :
    opensBlockComment cs = some (Scan.opensBlockComment cs) := by
  unfold opensBlockComment
  split
  · next r =>
    have whole := Scan.lineBody_whole r
    rw [Split.whole] at whole
    have length := minus_size_append (Scan.lineBody r).taken (Scan.lineBody r).rest
    have line := upTo_append (Scan.lineBody r).taken (Scan.lineBody r).rest
    rw [whole] at length line
    simp only [restOfLine_eq, Option.bind_eq_bind, Option.bind_some, length, line]
    rfl
  · next other =>
    have plain : Scan.opensBlockComment cs = false := by
      unfold Scan.opensBlockComment
      split
      · next r => exact absurd rfl (other r)
      · rfl
    rw [plain]

/-- The nesting does not fall below zero inside a block comment. -/
theorem nestAfter_eq {nest : Nat} (inside : nest ≠ 0) (line : List Char) :
    nestAfter nest line = some (Scan.depthAfter nest line) := by
  unfold nestAfter Scan.depthAfter
  split
  · rfl
  · split
    · exact minus_eq (by omega)
    · rfl

/-- What follows a block comment, of which `cs` begins with a line that leaves `inner` blocks open. -/
def behindLine (inner : Nat) (cs : List Char) : List Char :=
  if inner = 0 then (Scan.lineBody cs).rest else (Scan.blockLines inner (Scan.lineBody cs).rest).rest

theorem rest_blockLines (depth : Nat) (ending : LineEnding) (below : List Char) :
    (Scan.blockLines depth (ending.chars ++ below)).rest =
      behindLine (Scan.depthAfter depth (Scan.lineBody below).taken) below := by
  have ended : (Scan.lineEnd (ending.chars ++ below)).taken ≠ [] := by
    rw [Scan.lineEnd_chars]
    cases ending <;> simp [LineEnding.chars]
  unfold behindLine
  split
  · next closed =>
    rw [Scan.blockLines_last ended (by rwa [Scan.lineEnd_chars]), Scan.lineEnd_chars]
    rfl
  · next going =>
    rw [Scan.blockLines_next ended (by rwa [Scan.lineEnd_chars]), Scan.lineEnd_chars]
    rfl

theorem rest_blockLines_nil (depth : Nat) : (Scan.blockLines depth []).rest = [] := by
  rw [Scan.blockLines_stop rfl]

/-- A block comment is passed line by line, from offsets where lines end. -/
theorem blockEnd_eq {nest inner : Nat} (before : List Char) {cs : List Char} (filled : cs ≠ [])
    (next : nestAfter nest (Scan.lineBody cs).taken = some inner) :
    blockEnd (before ++ cs) nest (size before) (Text.pieces cs) = some (behindLine inner cs) := by
  induction whole : cs.length using Nat.strong_induction_on generalizing nest inner before cs with
  | _ n ih =>
  rcases Scan.lineBody_cases cs with ⟨single, body⟩ | ⟨line, ending, below, within, ended, rfl, body⟩
  · have behind := onFrom_append (before ++ cs) []
    rw [List.append_nil, size_append] at behind
    rw [body] at next
    rw [behindLine, body, Text.pieces_of_not_mem filled single, blockEnd,
      Text.chomp_of_not_mem single, next]
    simp only [Option.bind_eq_bind, Option.bind_some, behind, blockEnd, rest_blockLines_nil, ite_self]
  · have behind := onFrom_append (before ++ line) (ending.chars ++ below)
    rw [body] at next
    rw [behindLine, body, Text.pieces_line ending within, blockEnd, Text.chomp_line ended, next]
    simp only [Option.bind_eq_bind, Option.bind_some, ← size_append]
    split
    · simpa using behind
    · next going =>
      rw [rest_blockLines]
      by_cases last : below = []
      · simp [last, Text.pieces, blockEnd, behindLine, Scan.lineBody, rest_blockLines_nil]
      · have shorter : below.length < n := by
          have positive : 0 < ending.chars.length := by cases ending <;> simp [LineEnding.chars]
          simp only [List.length_append] at whole
          omega
        have further := ih _ shorter (before ++ (line ++ ending.chars)) last
          (nestAfter_eq going (Scan.lineBody below).taken) rfl
        simpa using further

/-- The first line of a block comment is its opener, so that nesting begins at one. -/
theorem nestAfter_opener {r : List Char} (opens : Scan.opensBlockComment r = true) :
    nestAfter 0 (Scan.lineBody ('%' :: r)).taken = some 1 := by
  rw [nestAfter, if_pos (Scan.trim_opener opens)]

theorem skipBlockComment_eq {r : List Char} (opens : Scan.opensBlockComment r = true) :
    skipBlockComment ('%' :: r) = some (Scan.blockRest r).rest := by
  have behind := blockEnd_eq [] (by simp) (nestAfter_opener opens)
  rw [behindLine, if_neg Nat.one_ne_zero, Scan.lineBody_cons, if_neg (by simp [Scan.atLineEnd])] at behind
  exact behind

theorem word_eq (st : LexState) (c : Char) (r : List Char) : word st c r = some (Lexer.word st c r) := by
  have whole : c :: r = (c :: (Scan.run isIdentRest r).taken) ++ (Scan.run isIdentRest r).rest := by
    rw [List.cons_append, ← Split.whole, Scan.run_whole]
  have length := minus_size_append (c :: (Scan.run isIdentRest r).taken) (Scan.run isIdentRest r).rest
  have spelled := upTo_append (c :: (Scan.run isIdentRest r).taken) (Scan.run isIdentRest r).rest
  rw [← whole] at length spelled
  simp only [word, length, spelled, Option.bind_eq_bind, Option.bind_some, if_true]

/-- What the lexer reads, without the lexeme. -/
def reading (s : LexStep) : TokenKind × List Char × LexState :=
  (s.kind, s.split.rest, s.next)

theorem step_comment (st : LexState) (r : List Char) :
    step st '%' r = some (reading (Lexer.step st '%' r)) := by
  have read : Lexer.step st '%' r =
      if st.lineStart && Scan.opensBlockComment r then ⟨.comment, Scan.blockRest r, st.plain⟩
      else ⟨.comment, Scan.lineBody r, st.plain⟩ := by
    rw [Lexer.step]
    rfl
  rw [step, if_neg (by simp), if_pos rfl, commentRest, read, opensBlockComment_eq]
  by_cases first : st.lineStart = true
  · rw [if_pos first, Option.bind_some]
    by_cases opens : Scan.opensBlockComment r = true
    · rw [if_pos opens, skipBlockComment_eq opens, if_pos (by simp [first, opens])]
      rfl
    · rw [if_neg opens, restOfLine_eq, if_neg (by simp [opens])]
      rfl
  · rw [if_neg first, restOfLine_eq, if_neg (by simp [first])]
    rfl

theorem step_eq (st : LexState) (c : Char) (r : List Char) :
    step st c r = some (reading (Lexer.step st c r)) := by
  by_cases mark : c = '%'
  · exact mark ▸ step_comment st r
  · unfold step
    rw [if_neg mark]
    split
    · next carriage =>
      obtain ⟨rfl, feed⟩ := carriage
      obtain ⟨s, rfl⟩ : ∃ s, r = '\n' :: s := by
        rcases r with _ | ⟨d, s⟩
        · simp at feed
        · exact ⟨s, by simpa using feed⟩
      rw [show onFrom 1 ('\n' :: s) = some s from onFrom_append ['\n'] s]
      rfl
    · split
      · next dots =>
        obtain ⟨rfl, further⟩ := dots
        obtain ⟨s, rfl⟩ := List.isPrefixOf_iff_prefix.mp further
        rw [restOfLine_eq]
        rfl
      · split
        · next letter =>
          rw [word_eq, Lexer.step_of_letter letter]
          rfl
        · rfl

theorem lexeme_eq (st : LexState) (c : Char) (r : List Char) :
    let s := Lexer.step st c r
    lexeme st c r = some ((s.kind, c :: s.split.taken), s.next, s.split.rest) := by
  intro s
  have whole : c :: r = (c :: s.split.taken) ++ s.split.rest := by
    rw [List.cons_append, ← Split.whole, Lexer.step_whole]
  have length := minus_size_append (c :: s.split.taken) s.split.rest
  have parts := cut_append (c :: s.split.taken) s.split.rest
  rw [← whole] at length parts
  rw [lexeme, step_eq, reading]
  simp only [Option.bind_eq_bind, Option.bind_some]
  rw [length, Option.bind_some, parts, Option.bind_some]
  rfl

/-- Lexing by byte offsets never fails. -/
theorem lexemes_eq (st : LexState) (cs : List Char) : lexemes st cs = some (Lexer.lexemes st cs) := by
  fun_induction Lexer.lexemes st cs with
  | case1 =>
    rw [lexemes]
  | case2 st c r s ih =>
    have shorter : s.split.rest.length ≤ r.length := Split.length_rest_le (Lexer.step_whole st c r)
    rw [lexemes, lexeme_eq]
    simp only [Option.bind_eq_bind, Option.bind_some]
    rw [if_pos shorter, ih]
    rfl

theorem plus_eq {a b : Nat} (fits : a + b < UInt32.size) : plus a b = some (a + b) := by
  have first : (UInt32.ofNat a).toNat = a := UInt32.toNat_ofNat_of_lt' (by omega)
  obtain ⟨sum, value⟩ := Overflow.stops.add_ofNat (a := .ofNat a) (n := b) (by rwa [first])
  rw [plus, sum, Option.map_some, value, first]

theorem endLine_eq {t : Token} (fits : t.endLine < UInt32.size) : endLine t = some t.endLine := by
  unfold endLine
  unfold Token.endLine at fits ⊢
  split
  · rfl
  · next inner =>
    rw [if_neg inner] at fits
    exact plus_eq fits

theorem tokenize_eq {source : String} (few : Text.feeds source.toList < UInt32.size - 1) :
    tokenize source = some (MatlabOutline.tokenize source) := by
  obtain ⟨ts, numbered, same⟩ := numberedTokens_eq .stops few
  rw [numberedTokens] at numbered
  simp only [tokenize, lexemes_eq, numbered, Option.bind_eq_bind, Option.bind_some]
  rw [same]
  rfl

end Checked

end MatlabOutline
