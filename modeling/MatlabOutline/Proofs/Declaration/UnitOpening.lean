import MatlabOutline.Proofs.Declaration.OpaqueBody
import MatlabOutline.SourceUnit

/-!
How a unit begins: its header and the keyword behind it. Main statements: a text without a header is kept
(`removeHeader_of_keyword`), the keyword decides what the unit declares (`classify_of_keyword`), and it is
where reading begins (`Cursor.skipSpacing_of_keyword`).
-/

namespace MatlabOutline

/-- A line that holds something else than a header does is kept from its beginning. -/
theorem dropHeader_margin {margin : List Token} (idle : ∀ g ∈ margin, g.isHeader = true ∧ g.isNewline = false)
    {t : Token} (code : t.isHeader = false) (line rest : List Token) :
    dropHeader line (margin ++ t :: rest) = line ++ (margin ++ t :: rest) := by
  induction margin generalizing line with
  | nil =>
    have going : t.isNewline = false := by
      rw [Token.isHeader, Token.isSpacing, Bool.or_eq_false_iff, Bool.or_eq_false_iff] at code
      exact code.1.2
    simp [dropHeader, going, code]
  | cons g margin ih =>
    rw [List.forall_mem_cons] at idle
    rw [List.cons_append, dropHeader, if_neg (by simp [idle.1.2]), if_pos idle.1.1, ih idle.2]
    simp

theorem dropHeader_blank {gap : List Token} (white : ∀ g ∈ gap, g.isWhitespace = true) {t : Token}
    (code : t.isHeader = false) (line rest : List Token) :
    dropHeader line (gap ++ t :: rest) = line ++ (gap ++ t :: rest) := by
  refine dropHeader_margin (fun g member => ⟨Token.isHeader_of_isWhitespace (white g member), ?_⟩) code line rest
  have kind : g.kind = .whitespace := by simpa [Token.isWhitespace] using white g member
  simp [Token.isNewline, kind]

theorem Token.not_isHeader_of_keyword {k : Token} (keyword : k.kind = .keyword) : k.isHeader = false := by
  simp [isHeader, isSpacing, isWhitespace, isNewline, keyword]

/-- A header has no part in what a unit declares. -/
theorem classify_append {header : List Token} (quiet : ∀ t ∈ header, t.isHeader = true) (ts : List Token) :
    classify (header ++ ts) = classify ts := by
  have none : header.find? Token.isSignificant = none := by
    simpa [List.find?_eq_none, Token.isSignificant] using quiet
  rw [classify, List.find?_append, none, Option.none_or, classify]

/-- A keyword behind a header is significant. -/
theorem classify_of_keyword {front : List Token} (quiet : ∀ g ∈ front, g.isHeader = true) {k : Token}
    (keyword : k.kind = .keyword) (rest : List Token) :
    classify (front ++ k :: rest) =
      if k.isKeyword "function" then .function else if k.isKeyword "classdef" then .cls else .script := by
  have significant : k.isSignificant = true := by
    rw [Token.isSignificant, Token.not_isHeader_of_keyword keyword, Bool.not_false]
  rw [classify_append quiet, classify, List.find?_cons_of_pos significant]

theorem classify_of_function {front : List Token} (quiet : ∀ g ∈ front, g.isHeader = true) {k : Token}
    (keyword : k.isKeyword "function" = true) (rest : List Token) :
    classify (front ++ k :: rest) = .function := by
  rw [classify_of_keyword quiet (Token.kind_of_isKeyword keyword), if_pos keyword]

theorem removeHeader_of_keyword {source : String} {gap rest : List Token} {k : Token}
    (cut : tokenize source = gap ++ k :: rest) (white : ∀ g ∈ gap, g.isWhitespace = true)
    (keyword : k.kind = .keyword) : removeHeader source = source := by
  rw [removeHeader, cut, dropHeader_blank white (Token.not_isHeader_of_keyword keyword), List.nil_append, ← cut,
    concat_tokenize]

theorem Cursor.skipSpacing_of_keyword {gap : List Token} (spacing : ∀ g ∈ gap, g.isSpacing = true) {k : Token}
    (keyword : k.kind = .keyword) (rest : List Token) :
    (ofTokens (gap ++ k :: rest)).skipSpacing = ⟨gap.reverse, k :: rest⟩ := by
  have stop : k.isSpacing = false := by simp [Token.isSpacing, Token.isWhitespace, Token.isNewline, keyword]
  have moved := skip_over spacing stop (by simp [Token.isContinuation, keyword]) [] rest
  simpa [ofTokens, skipSpacing] using moved

end MatlabOutline
