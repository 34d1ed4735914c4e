import MatlabOutline.Proofs.Checked.Entries
import MatlabOutline.Proofs.Declaration.UnitOpening
import MatlabOutline.Proofs.Normalize.ExpandedLines
import MatlabOutline.Proofs.Normalize.FixedPoints

/-!
A declaration on the last line that has a number. The text is in normal form and reading comes to the
declaration, but the line below it is asked for, which has no number (`Checked.entries_argumentBelow`).
-/

namespace MatlabOutline

/-- The text `opening` with `n` line ends and a declaration below it. -/
def declaredBelow (opening : String) (n : Nat) : String :=
  opening ++ String.ofList (List.replicate n '\n' ++ ['x', ' ', '%', 'c'])

/-- The tokens of `n` line ends, of which the first is on `line`. -/
def lineEnds (line n : Nat) : List Token :=
  Token.place line (List.replicate n (.newline, ['\n']))

def declarationOn (line : Nat) : List Token :=
  [⟨.name, "x", line⟩, ⟨.whitespace, " ", line⟩, ⟨.comment, "%c", line⟩]

theorem newline_of_mem_lineEnds {line n : Nat} {t : Token} (member : t ∈ lineEnds line n) :
    t.kind = .newline := by
  have lexeme := Token.mem_of_mem_place member
  exact congrArg Prod.fst (List.eq_of_mem_replicate lexeme)

theorem feeds_declaredBelow (opening : String) (n : Nat) :
    Text.feeds (declaredBelow opening n).toList = Text.feeds opening.toList + n := by
  have last : Text.feeds ['x', ' ', '%', 'c'] = 0 := by decide
  rw [declaredBelow, String.toList_append, Text.feeds_append, String.toList_ofList,
    Text.feeds_append, last, Nat.add_zero]
  simp [Text.feeds]

theorem tokenize_declaredBelow {opening : String} (ended : endsLine opening = true) (n : Nat) :
    tokenize (declaredBelow opening n) = tokenize opening ++
      (lineEnds (1 + Text.feeds opening.toList) n ++ declarationOn (1 + Text.feeds opening.toList + n)) := by
  have last : Lexer.lexemes .initial ['x', ' ', '%', 'c'] =
      [(.name, ['x']), (.whitespace, [' ']), (.comment, ['%', 'c'])] := by decide +kernel
  have above : Text.feeds ((List.replicate n (TokenKind.newline, ['\n'])).map Prod.snd).flatten = n := by
    simp [Text.feeds]
  rw [declaredBelow, tokenize, String.toList_append, place_append_of_endsLine ended,
    String.toList_ofList, lexemes_feeds, last, ← Token.place_below, Token.place_append, above]
  rfl

/-- A declaration in the first block of a function, `n` lines below the word that opens the block. -/
def argumentBelow (n : Nat) : String :=
  declaredBelow "function f()\narguments\n" n

def blockOpening : List Token :=
  [⟨.keyword, "function", 1⟩, ⟨.whitespace, " ", 1⟩, ⟨.nameFunction, "f", 1⟩, ⟨.punctuation, "(", 1⟩,
    ⟨.punctuation, ")", 1⟩, ⟨.newline, "\n", 1⟩, ⟨.keyword, "arguments", 2⟩, ⟨.newline, "\n", 2⟩]

theorem feeds_opening : Text.feeds "function f()\narguments\n".toList = 2 := by
  decide +kernel

theorem feeds_argumentBelow (n : Nat) : Text.feeds (argumentBelow n).toList = n + 2 := by
  rw [argumentBelow, feeds_declaredBelow, feeds_opening, Nat.add_comm]

theorem tokenize_argumentBelow (n : Nat) :
    tokenize (argumentBelow n) = blockOpening ++ (lineEnds 3 n ++ declarationOn (3 + n)) := by
  have opening : tokenize "function f()\narguments\n" = blockOpening := by decide +kernel
  have ended : endsLine "function f()\narguments\n" = true := by
    rw [endsLine, opening]
    rfl
  rw [argumentBelow, tokenize_declaredBelow ended, opening, feeds_opening]

theorem lackingLists_of_undeclared {ts : List Token} (undeclared : ∀ t ∈ ts, t.kind ≠ .nameFunction) :
    lackingLists ts = 0 := by
  induction ts with
  | nil => rfl
  | cons t ts ih =>
    obtain ⟨first, others⟩ := List.forall_mem_cons.mp undeclared
    simp [lackingLists, first, ih others]

theorem forall_mem_argumentBelow {n : Nat} {p : Token → Prop} (opening : ∀ t ∈ blockOpening, p t)
    (newline : ∀ t : Token, t.kind = .newline → p t) (declaration : ∀ t ∈ declarationOn (3 + n), p t) :
    ∀ t ∈ tokenize (argumentBelow n), p t := by
  rw [tokenize_argumentBelow, List.forall_mem_append, List.forall_mem_append]
  exact ⟨opening, fun t member => newline t (newline_of_mem_lineEnds member), declaration⟩

theorem isNormal_argumentBelow (n : Nat) : IsNormal (argumentBelow n) where
  unbroken := by
    apply forall_mem_argumentBelow
    · decide
    · intro t newline
      simp [Token.isContinuation, newline]
    · simp [declarationOn, Token.isContinuation, List.isPrefixOf]
  listed := by
    have undeclared : ∀ t ∈ lineEnds 3 n ++ declarationOn (3 + n), t.kind ≠ .nameFunction := by
      refine List.forall_mem_append.mpr ⟨fun t feed => ?_, by simp [declarationOn]⟩
      simp [newline_of_mem_lineEnds feed]
    rw [← lackingLists_eq_zero_iff, tokenize_argumentBelow]
    simp [blockOpening, lackingLists, startsParameters, Token.isWhitespace, Token.isPunct, Token.is,
      lackingLists_of_undeclared undeclared]
  settled := by
    have classless : Nesting.Classless {} := by simp [Nesting.Classless]
    apply classless.settled
    rw [flatten_tokenLines]
    apply forall_mem_argumentBelow
    · decide
    · intro t newline
      simp [Token.isKeyword, Token.is, newline]
    · simp [declarationOn, Token.isKeyword, Token.is]

/-- The text has no header and is in normal form. -/
theorem tokenize_normal_argumentBelow (n : Nat) :
    tokenize (normalize (removeHeader (argumentBelow n))) =
      blockOpening ++ (lineEnds 3 n ++ declarationOn (3 + n)) := by
  have headless : removeHeader (argumentBelow n) = argumentBelow n :=
    removeHeader_of_keyword (show tokenize (argumentBelow n) = [] ++ ⟨.keyword, "function", 1⟩ :: _ from
      tokenize_argumentBelow n) (List.forall_mem_nil _) rfl
  rw [headless, (isNormal_argumentBelow n).fixed, tokenize_argumentBelow]

namespace Checked

theorem entriesFrom_lineEnds (block : BlockKind) (dotted : Bool) (items : List ListItem)
    (entries : List Entry) {feeds : List Token} (newlines : ∀ t ∈ feeds, t.kind = .newline)
    (passed rest : List Token) (notes : List Note) :
    entriesFrom block dotted items entries ⟨⟨passed, feeds ++ rest⟩, notes⟩ =
      entriesFrom block dotted items entries ⟨⟨feeds.reverse ++ passed, rest⟩, notes⟩ := by
  induction feeds generalizing passed with
  | nil => rfl
  | cons t feeds ih =>
    obtain ⟨newline, others⟩ := List.forall_mem_cons.mp newlines
    have start : (⟨⟨passed, t :: (feeds ++ rest)⟩, notes⟩ : Reader).move Cursor.skipWhitespace =
        ⟨⟨passed, t :: (feeds ++ rest)⟩, notes⟩ := by
      simp [Reader.move, Cursor.skipWhitespace, Cursor.skip, Cursor.skipFrom, Token.isWhitespace,
        Token.isContinuation, newline]
    have further := ih others (t :: passed)
    rw [List.reverse_cons, List.append_assoc, List.singleton_append, ← further, List.cons_append,
      entriesFrom_step, start]
    simp [Cursor.peek, Token.isKeyword, Token.is, Cursor.isName, Reader.separatesEntries, Token.isNewline,
      newline, Reader.move, Cursor.advance]

theorem entry_declaration (line : Nat) (passed : List Token) (notes : List Note) :
    Reader.entry true ⟨⟨passed, declarationOn line⟩, notes⟩ =
      ({ name := "x", firstLine := line, lastLine := line, spec := {}, trailing := some ⟨.comment, "%c", line⟩ },
        ⟨⟨(declarationOn line).reverse ++ passed, []⟩, notes⟩) := by
  simp [Reader.entry, declarationOn, Cursor.entryName, Cursor.dottedName?, Cursor.take?, Cursor.isName,
    Cursor.dottedFrom, Cursor.skipWhitespace, Cursor.skip, Cursor.skipFrom, Token.isWhitespace,
    Token.isContinuation, List.isPrefixOf, Reader.entrySize, Token.isPunct, Token.is, Cursor.entryType,
    Cursor.entryValidators, Cursor.entryDefault, Token.isOperator, Cursor.skipSeparators, Token.isRemark,
    Cursor.previous, Token.endLine, Token.isNewline, Text.feeds, Reader.withCursor, Cursor.line]

/-- The items that the declaration makes. -/
def declarationItems (line : Nat) : List ListItem :=
  [.entry ⟨line, line, some "%c"⟩, .comment ⟨line, line, ["%c"], true⟩]

theorem entriesFrom_declaration {line : Nat} (numbered : line < UInt32.size) (block : BlockKind)
    (passed : List Token) (notes : List Note) :
    (entriesFrom block true [] [] ⟨⟨passed, declarationOn line⟩, notes⟩).map (·.1.1) =
      some (declarationItems line) := by
  have start : (⟨⟨passed, declarationOn line⟩, notes⟩ : Reader).move Cursor.skipWhitespace =
      ⟨⟨passed, declarationOn line⟩, notes⟩ := by
    simp [Reader.move, Cursor.skipWhitespace, Cursor.skip, declarationOn, Cursor.skipFrom,
      Token.isWhitespace, Token.isContinuation]
  have here : (⟨passed, declarationOn line⟩ : Cursor).peek = some ⟨.name, "x", line⟩ := rfl
  have comment : trailing (Reader.entry true ⟨⟨passed, declarationOn line⟩, notes⟩).1 =
      some (some ("%c", line)) := by
    have ends : plus line 0 = some line := plus_eq numbered
    simp [entry_declaration, trailing, endLine, Token.isNewline, Text.feeds, ends]
  rw [entriesFrom_step]
  simp only [start, here, comment]
  have named : Cursor.isName ⟨.name, "x", line⟩ = true := rfl
  rw [if_neg (by simp [Token.isKeyword, Token.is]), if_pos named, Option.bind_eq_bind, Option.bind_some,
    entriesFrom_step]
  simp only [entry_declaration]
  rfl

/-- The comment behind a declaration on the last line is looked up on the line below. -/
theorem docstrings_declaration {line : Nat} (last : line + 1 = UInt32.size) :
    docstrings (declarationItems line) = none := by
  have small : (UInt32.ofNat line).toNat = line := UInt32.toNat_ofNat_of_lt' (by omega)
  have beyond : UInt32.size ≤ (UInt32.ofNat line).toNat + (UInt32.ofNat 1).toNat := by
    rw [small]
    exact Nat.le_of_eq last.symm
  have below : plus line 1 = none := by rw [plus, Overflow.add_stops_of_le beyond, Option.map_none]
  simp [declarationItems, docstrings, docstringsAfter, docAbove, docBehind, docBelow, ListItem.block?,
    startBelow, below]

theorem entries_argumentBelow {n : Nat} (last : n + 4 = UInt32.size) :
    entries .arguments true
      { cursor := ⟨blockOpening.reverse, lineEnds 3 n ++ declarationOn (3 + n)⟩ } = none := by
  have numbered : 3 + n < UInt32.size := by omega
  have collected := entriesFrom_declaration numbered .arguments
    ((lineEnds 3 n).reverse ++ blockOpening.reverse) []
  obtain ⟨⟨⟨items, read⟩, r⟩, found, rfl : items = declarationItems (3 + n)⟩ :=
    Option.map_eq_some_iff.mp collected
  rw [entries, entriesFrom_lineEnds _ _ _ _ fun t => newline_of_mem_lineEnds, found]
  simp only [Option.bind_eq_bind, Option.bind_some]
  rw [docstrings_declaration (by omega), Option.bind_none]

end Checked

/-- A reader behind the opening of the block comes to the sum that overflows. -/
theorem exists_entries_argumentBelow {n : Nat} (last : n + 4 = UInt32.size) :
    ∃ r : Reader,
      r.cursor.tokens = tokenize (normalize (removeHeader (argumentBelow n))) ∧
      r.cursor.passed.reverse = blockOpening ∧ Checked.entries .arguments true r = none :=
  ⟨⟨⟨blockOpening.reverse, lineEnds 3 n ++ declarationOn (3 + n)⟩, []⟩,
    by rw [tokenize_normal_argumentBelow, Cursor.tokens, List.reverse_reverse],
    List.reverse_reverse blockOpening, Checked.entries_argumentBelow last⟩

end MatlabOutline
