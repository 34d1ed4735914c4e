import MatlabOutline.Proofs.Blocks.Nested

/-!
Runs of tokens that differ by their lines and by empty parameter lists behind declared names. Main
statements: completing the signatures of a text gives such a run (`relisted_completeSignatures`), and
how a run is nested does not change (`Nested.relisted`).
-/

namespace MatlabOutline

/-- The kind and the text of a token, without its line. -/
def Token.segment (t : Token) : TokenKind × String :=
  (t.kind, t.text)

/-- The second run is the first on other lines, with some of its missing parameter lists put in. -/
inductive Relisted : List Token → List Token → Prop
  | nil : Relisted [] []
  | same {t u : Token} {ts us : List Token} : u.segment = t.segment → Relisted ts us →
      Relisted (t :: ts) (u :: us)
  | list {t u o c : Token} {ts us : List Token} : u.segment = t.segment → t.kind = .nameFunction →
      startsParameters ts = false → o.isPunct "(" = true → c.isPunct ")" = true → Relisted ts us →
      Relisted (t :: ts) (u :: o :: c :: us)

namespace Token

theorem kind_of_segment {t u : Token} (same : u.segment = t.segment) : u.kind = t.kind :=
  congrArg Prod.fst same

theorem text_of_segment {t u : Token} (same : u.segment = t.segment) : u.text = t.text :=
  congrArg Prod.snd same

theorem is_of_segment {t u : Token} (same : u.segment = t.segment) (kind : TokenKind) (text : String) :
    u.is kind text = t.is kind text := by
  rw [is, is, kind_of_segment same, text_of_segment same]

theorem isOpenBracket_of_segment {t u : Token} (same : u.segment = t.segment) :
    u.isOpenBracket = t.isOpenBracket := by
  simp only [isOpenBracket, isPunct, is_of_segment same]

theorem isCloseBracket_of_segment {t u : Token} (same : u.segment = t.segment) :
    u.isCloseBracket = t.isCloseBracket := by
  simp only [isCloseBracket, isPunct, is_of_segment same]

theorem opensBlock_of_segment {t u : Token} (same : u.segment = t.segment) :
    u.opensBlock = t.opensBlock := by
  simp only [opensBlock, kind_of_segment same, text_of_segment same]

theorem kind_of_opensBlock {t : Token} (word : t.opensBlock = true) : t.kind = .keyword := by
  simp only [opensBlock, Bool.and_eq_true, beq_iff_eq] at word
  exact word.1

theorem isOpenBracket_of_isPunct {t : Token} (punct : t.isPunct "(" = true) :
    t.isOpenBracket = true := by
  simp [isOpenBracket, punct]

theorem isCloseBracket_of_isPunct {t : Token} (punct : t.isPunct ")" = true) :
    t.isCloseBracket = true := by
  simp [isCloseBracket, punct]

end Token

theorem startsParameters_append {ts us : List Token} (lacks : startsParameters (ts ++ us) = false) :
    startsParameters ts = false := by
  induction ts with
  | nil => rfl
  | cons t ts ih =>
    by_cases blank : t.isWhitespace = true
    · simp only [startsParameters, List.cons_append, List.dropWhile_cons, blank, if_true] at lacks ⊢
      exact ih lacks
    · simpa [startsParameters, List.dropWhile_cons, blank] using lacks

namespace Relisted

/-- Both parts of a run are relisted one by one. -/
theorem append_inv {ts us vs : List Token} (relisted : Relisted (ts ++ us) vs) :
    ∃ ts' us', vs = ts' ++ us' ∧ Relisted ts ts' ∧ Relisted us us' := by
  induction ts generalizing vs with
  | nil => exact ⟨[], vs, rfl, .nil, relisted⟩
  | cons t ts ih =>
    rcases relisted with _ | ⟨same, rest⟩ | ⟨same, declared, lacks, opens, closes, rest⟩
    · obtain ⟨ts', us', rfl, first, second⟩ := ih rest
      exact ⟨_ :: ts', us', rfl, .same same first, second⟩
    · obtain ⟨ts', us', rfl, first, second⟩ := ih rest
      exact ⟨_ :: _ :: _ :: ts', us', rfl,
        .list same declared (startsParameters_append lacks) opens closes first, second⟩

/-- A token that declares nothing only changes its line. -/
theorem cons_inv {t : Token} {ts vs : List Token} (relisted : Relisted (t :: ts) vs)
    (other : t.kind ≠ .nameFunction) :
    ∃ u us, vs = u :: us ∧ u.segment = t.segment ∧ Relisted ts us := by
  rcases relisted with _ | ⟨same, rest⟩ | ⟨same, declared, _⟩
  · exact ⟨_, _, rfl, same, rest⟩
  · exact absurd declared other

/-- What is between two tokens that declare nothing stays between them. -/
theorem group_inv {o c : Token} {g ts vs : List Token} (relisted : Relisted (o :: (g ++ c :: ts)) vs)
    (opening : o.kind ≠ .nameFunction) (closing : c.kind ≠ .nameFunction) :
    ∃ o' g' c' us, vs = o' :: (g' ++ c' :: us) ∧ o'.segment = o.segment ∧ Relisted g g' ∧
      c'.segment = c.segment ∧ Relisted ts us := by
  obtain ⟨o', rest, rfl, first, inside⟩ := relisted.cons_inv opening
  obtain ⟨g', rest', rfl, between, behind⟩ := inside.append_inv
  obtain ⟨c', us, rfl, last, further⟩ := behind.cons_inv closing
  exact ⟨o', g', c', us, rfl, first, between, last, further⟩

end Relisted

theorem Enclosed.relisted {ts us : List Token} (enclosed : Enclosed Token.opensBlock ts)
    (relisted : Relisted ts us) : Enclosed Token.opensBlock us := by
  induction enclosed generalizing us with
  | nil =>
    cases relisted
    exact .nil
  | plain opened closed word _ ih =>
    rcases relisted with _ | ⟨same, rest⟩ | ⟨same, _, _, opens, closes, rest⟩
    all_goals
      rw [← Token.isOpenBracket_of_segment same] at opened
      rw [← Token.isCloseBracket_of_segment same] at closed
      rw [← Token.opensBlock_of_segment same] at word
    · exact .plain opened closed word (ih rest)
    · exact .plain opened closed word (.group (Token.isOpenBracket_of_isPunct opens) .nil
        (Token.isCloseBracket_of_isPunct closes) (ih rest))
  | group opened _ closed _ innerIH restIH =>
    obtain ⟨o', g', c', us, rfl, first, between, last, further⟩ := relisted.group_inv
      (by simp [Token.kind_of_isOpenBracket opened]) (by simp [Token.kind_of_isCloseBracket closed])
    rw [← Token.isOpenBracket_of_segment first] at opened
    rw [← Token.isCloseBracket_of_segment last] at closed
    exact .group opened (innerIH between) closed (restIH further)

/-- Empty parameter lists are balanced, so that a relisted run is nested as before. -/
theorem Nested.relisted {ts us : List Token} (nested : Nested Token.opensBlock ts)
    (relisted : Relisted ts us) : Nested Token.opensBlock us := by
  induction nested generalizing us with
  | nil =>
    cases relisted
    exact .nil
  | plain opened closed word ends _ ih =>
    rcases relisted with _ | ⟨same, rest⟩ | ⟨same, _, _, opens, closes, rest⟩
    all_goals
      rw [← Token.isOpenBracket_of_segment same] at opened
      rw [← Token.isCloseBracket_of_segment same] at closed
      rw [← Token.opensBlock_of_segment same] at word
      rw [Token.isKeyword, ← Token.is_of_segment same] at ends
    · exact .plain opened closed word ends (ih rest)
    · exact .plain opened closed word ends (.group (Token.isOpenBracket_of_isPunct opens) .nil
        (Token.isCloseBracket_of_isPunct closes) (ih rest))
  | group opened enclosed closed _ ih =>
    obtain ⟨o', g', c', us, rfl, first, between, last, further⟩ := relisted.group_inv
      (by simp [Token.kind_of_isOpenBracket opened]) (by simp [Token.kind_of_isCloseBracket closed])
    rw [← Token.isOpenBracket_of_segment first] at opened
    rw [← Token.isCloseBracket_of_segment last] at closed
    exact .group opened (enclosed.relisted between) closed (ih further)
  | block word _ ends _ innerIH restIH =>
    obtain ⟨k', b', e', us, rfl, first, between, last, further⟩ := relisted.group_inv
      (by simp [Token.kind_of_opensBlock word]) (by simp [Token.kind_of_isKeyword ends])
    rw [← Token.opensBlock_of_segment first] at word
    rw [Token.isKeyword, ← Token.is_of_segment last] at ends
    exact .block word (innerIH between) ends (restIH further)

theorem Token.map_segment_place (line : Nat) (xs : List (TokenKind × List Char)) :
    (place line xs).map segment = xs.map fun x => (x.1, String.ofList x.2) := by
  induction xs generalizing line with
  | nil => rfl
  | cons x xs ih => simp [place, segment, ih]

theorem map_segment_tokenize (source : String) :
    (tokenize source).map Token.segment = segments source :=
  Token.map_segment_place 1 _

theorem startsParameters_congr {ts us : List Token} (same : us.map Token.segment = ts.map Token.segment) :
    startsParameters us = startsParameters ts := by
  induction ts generalizing us with
  | nil =>
    rw [List.map_nil, List.map_eq_nil_iff] at same
    rw [same]
  | cons t ts ih =>
    obtain ⟨u, us, rfl, first, rest⟩ := List.map_eq_cons_iff.mp same
    have blank : u.isWhitespace = t.isWhitespace := by
      rw [Token.isWhitespace, Token.isWhitespace, Token.kind_of_segment first]
    have list : u.isPunct "(" = t.isPunct "(" := Token.is_of_segment first _ _
    have further := ih rest
    simp only [startsParameters, List.dropWhile_cons, blank] at further ⊢
    split
    · exact further
    · simp [list]

/-- Putting in the lists of a run of lexemes relists the tokens that it spells. -/
theorem relisted_withLists {ts : List Token} {xs : List (TokenKind × List Char)}
    (spelled : ts.map Token.segment = xs.map fun x => (x.1, String.ofList x.2)) (line : Nat) :
    Relisted ts (Token.place line (withLists xs)) := by
  induction xs generalizing ts line with
  | nil =>
    rw [List.map_nil, List.map_eq_nil_iff] at spelled
    rw [spelled]
    exact .nil
  | cons x xs ih =>
    obtain ⟨t, ts, rfl, first, rest⟩ := List.map_eq_cons_iff.mp spelled
    rw [withLists]
    split
    · next lacks =>
      simp only [Bool.and_eq_true, beq_iff_eq, Bool.not_eq_true'] at lacks
      have list : startsParameters ts = false := by
        rw [← lacks.2, ← startsParameters_place 1]
        exact startsParameters_congr (rest.trans (Token.map_segment_place 1 xs).symm)
      have kind : t.kind = .nameFunction := (congrArg Prod.fst first).trans lacks.1
      exact .list first.symm kind list (by rfl) (by rfl) (ih rest _)
    · exact .same first.symm (ih rest _)

theorem segments_append {s : String} (ended : endsLine s = true) (t : String) :
    segments (s ++ t) = segments s ++ segments t := by
  simp only [segments, String.toList_append, lexemes_append_of_endsLine ended, List.map_append]

/-- A text that is cut behind line ends has the tokens of its pieces, but for their lines. -/
theorem segments_join_append {pieces : List String} (ended : ∀ p ∈ pieces, endsLine p = true) (t : String) :
    segments (String.join pieces ++ t) = (pieces.map segments).flatten ++ segments t := by
  induction pieces with
  | nil => simp
  | cons p pieces ih =>
    simp only [List.forall_mem_cons] at ended
    simp [String.join_cons, String.append_assoc, segments_append ended.1, ih ended.2]

theorem segments_join {pieces : List String} (ended : ∀ p ∈ pieces, endsLine p = true) :
    segments (String.join pieces) = (pieces.map segments).flatten := by
  have none : segments "" = [] := by simp [segments, Lexer.lexemes]
  simpa [none] using segments_join_append ended ""

theorem endsLine_eq (s : String) : endsLine s = (segments s).getLast?.all (·.1 == .newline) := by
  rw [endsLine, ← map_segment_tokenize, List.getLast?_map]
  cases (tokenize s).getLast? <;> rfl

theorem endsLine_join {pieces : List String} (ended : ∀ p ∈ pieces, endsLine p = true) :
    endsLine (String.join pieces) = true := by
  induction pieces with
  | nil => simp [endsLine_eq, segments, Lexer.lexemes]
  | cons p pieces ih =>
    rw [List.forall_mem_cons] at ended
    have first := ended.1
    have second := ih ended.2
    rw [endsLine_eq] at first second ⊢
    rw [String.join_cons, segments_append ended.1, List.getLast?_append]
    cases last : (segments (String.join pieces)).getLast? with
    | none => simpa using first
    | some x => simpa [last] using second

/-- Completing the signatures of a text relists the tokens of its pieces. -/
theorem relisted_completeSignatures {pieces : List String} (ended : ∀ p ∈ pieces, endsLine p = true) :
    Relisted (pieces.map tokenize).flatten (tokenize (completeSignatures (String.join pieces))) := by
  rw [tokenize_completeSignatures]
  apply relisted_withLists
  calc (pieces.map tokenize).flatten.map Token.segment
      = (pieces.map segments).flatten := by
        simp [List.map_flatten, Function.comp_def, map_segment_tokenize]
    _ = segments (String.join pieces) := (segments_join ended).symm

end MatlabOutline
