import MatlabOutline.Proofs.LineEndings.Passes

/-!
What the kind of a token promises of its text: names are identifiers, declared names are dotted
identifiers, strings begin with a quote, and a comment that runs over lines begins with the mark of
a block.
-/

namespace MatlabOutline

namespace Text

/-- A text is cut on both sides of a mark. -/
theorem splitAt_mark (d : Char) (cs ds : List Char) :
    splitAt d (cs ++ d :: ds) = splitAt d cs ++ splitAt d ds := by
  induction cs with
  | nil => simp [splitAt]
  | cons c cs ih =>
    by_cases mark : c = d
    · simp [splitAt, mark, ih]
    · obtain ⟨p, ps, parts⟩ := List.exists_cons_of_ne_nil (splitAt_ne_nil d cs)
      simp [splitAt, mark, ih, parts]

end Text

theorem point_not_mem_of_identifier {cs : List Char} (word : isIdentifierChars cs = true) :
    '.' ∉ cs := by
  rcases cs with _ | ⟨c, r⟩
  · simp
  · rw [isIdentifierChars, Bool.and_eq_true, List.all_eq_true] at word
    intro point
    rcases List.mem_cons.mp point with rfl | later
    · exact absurd word.1 (by decide)
    · exact absurd (word.2 '.' later) (by decide)

/-- Characters of identifiers with points between them. -/
def isDottedChars (cs : List Char) : Bool :=
  (Text.splitAt '.' cs).all isIdentifierChars

theorem isDottedIdentifier_eq (s : String) : isDottedIdentifier s = isDottedChars s.toList :=
  rfl

theorem isDottedChars_of_identifier {cs : List Char} (word : isIdentifierChars cs = true) :
    isDottedChars cs = true := by
  rw [isDottedChars, Text.splitAt_of_not_mem (point_not_mem_of_identifier word)]
  simp [word]

theorem isDottedChars_append {cs ds : List Char} (first : isDottedChars cs = true)
    (second : isDottedChars ds = true) : isDottedChars (cs ++ '.' :: ds) = true := by
  rw [isDottedChars] at first second ⊢
  rw [Text.splitAt_mark, List.all_append, first, second]
  rfl

theorem isDottedIdentifier_of_isIdentifier {s : String} (word : isIdentifier s = true) :
    isDottedIdentifier s = true :=
  isDottedChars_of_identifier word

theorem isIdentifierChars_run {c : Char} (start : isIdentStart c = true) (r : List Char) :
    isIdentifierChars (c :: (Scan.run isIdentRest r).taken) = true := by
  rw [isIdentifierChars, start, Scan.all_taken_run]
  rfl

/-- The further parts of a dotted name go on with one. -/
theorem isDottedChars_dottedRest (r : List Char) {cs : List Char} (before : isDottedChars cs = true) :
    isDottedChars (cs ++ (Scan.dottedRest r).taken) = true := by
  fun_induction Scan.dottedRest r generalizing cs with
  | case1 c r start ih =>
    have word := isDottedChars_of_identifier (isIdentifierChars_run start r)
    have longer := ih (isDottedChars_append before word)
    simpa [Split.prepend, Scan.run] using longer
  | case2 => simpa using before
  | case3 => simpa using before

/-- What a kind promises of the texts of its tokens. -/
def TokenKind.Admits (cs : List Char) : TokenKind → Prop
  | name => isIdentifierChars cs = true
  | nameFunction => isDottedChars cs = true
  | string => cs.head? = some '\'' ∨ cs.head? = some '"'
  | comment => '\n' ∈ cs → ['%', '\x7b'].isPrefixOf cs = true
  | _ => True

namespace Lexer

theorem admits_word (st : LexState) {c : Char} (start : isIdentStart c = true) (r : List Char) :
    (word st c r).kind.Admits (c :: (word st c r).split.taken) := by
  have word := isIdentifierChars_run start r
  fun_cases Lexer.word st c r
  case case2 =>
    have dotted := isDottedChars_dottedRest (Scan.run isIdentRest r).rest
      (isDottedChars_of_identifier word)
    simpa [TokenKind.Admits, Split.andThen, Split.prepend] using dotted
  case case4 =>
    simp only [wordKind]
    split
    · trivial
    · split
      · trivial
      · exact word
  all_goals exact word

theorem admits_dot (st : LexState) (r : List Char) :
    (dot st r).kind.Admits ('.' :: (dot st r).split.taken) := by
  fun_cases dot st r
  case case1 => simp [TokenKind.Admits, Scan.feed_not_mem_lineBody]
  all_goals trivial

/-- A step reads a lexeme that its kind admits. -/
theorem admits_step (st : LexState) (c : Char) (r : List Char) :
    (step st c r).kind.Admits (c :: (step st c r).split.taken) := by
  by_cases remark : (step st c r).kind = .comment
  · rw [remark]
    exact comment_with_feed remark
  fun_cases step st c r
  case case6 _ _ _ _ point =>
    obtain rfl : c = '.' := beq_iff_eq.mp point
    simpa [step] using admits_dot st r
  case case8 quote =>
    have quoted : c = '\'' ∨ c = '"' := by simpa using quote
    simpa [TokenKind.Admits] using quoted
  case case10 start => exact admits_word st start r
  case case4 => simp_all [step]
  case case5 => simp_all [step]
  all_goals trivial

end Lexer

/-- Every token has a text that its kind admits. -/
theorem admits_of_mem_tokenize {source : String} {t : Token} (member : t ∈ tokenize source) :
    t.kind.Admits t.text.toList :=
  Lexer.forall_lexemes (motive := fun kind cs => kind.Admits cs) Lexer.admits_step .initial
    source.toList _ (Token.mem_of_mem_place member)

end MatlabOutline
