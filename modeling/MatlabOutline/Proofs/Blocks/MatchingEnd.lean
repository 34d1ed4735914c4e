import MatlabOutline.Proofs.Blocks.Nested

/-!
Where a block ends. The well nested runs are those whose blocks and brackets can be counted down to none
(`nested_iff`). Main statement: passing over a block stops right behind the `end` that a well nested body leaves
for it, and without one at the end of input (`Cursor.skipBlock_matching_end`).
-/

namespace MatlabOutline

namespace Token

theorem not_bracket_of_keyword {t : Token} (kind : t.kind = .keyword) :
    t.isOpenBracket = false ∧ t.isCloseBracket = false := by
  simp [isOpenBracket, isCloseBracket, isPunct, is, kind]

end Token

namespace Cursor

/-- Whether a run closes the blocks and brackets that are open before it, so many of each, and all that it opens
itself. Within brackets no block is opened, and an `end` is an index. -/
def closesAll (blocks brackets : Nat) : List Token → Bool
  | [] => blocks == 0 && brackets == 0
  | t :: r =>
    if t.isOpenBracket then closesAll blocks (brackets + 1) r
    else if t.isCloseBracket then brackets != 0 && closesAll blocks (brackets - 1) r
    else if isOpener t then brackets == 0 && closesAll (blocks + 1) brackets r
    else if t.isKeyword "end" && brackets == 0 then blocks != 0 && closesAll (blocks - 1) brackets r
    else closesAll blocks brackets r

theorem kind_of_isOpener {t : Token} (word : isOpener t = true) : t.kind = .keyword := by
  simp only [isOpener, Bool.and_eq_true, beq_iff_eq] at word
  exact word.1

theorem countsBlocks_closesAll : CountsBlocks fun blocks brackets _ ts => closesAll blocks brackets ts where
  plain blocks brackets _ rest t ends word opens closes := by
    have first : (t.isKeyword "end" && brackets == 0) = false := by
      rcases ends with other | inside
      · simp [other]
      · simp [inside]
    simp [closesAll, opens, closes, word, first]
  openBracket blocks brackets _ rest _ opens := by simp [closesAll, opens]
  closeBracket blocks brackets _ rest _ closes := by
    simp [closesAll, closes, Token.isOpenBracket_of_isCloseBracket closes]
  opener blocks _ rest t word := by
    obtain ⟨opens, closes⟩ := Token.not_bracket_of_keyword (kind_of_isOpener word)
    simp [closesAll, opens, closes, word]
  ends blocks _ rest t ends := by
    obtain ⟨opens, closes⟩ := Token.not_bracket_of_keyword (Token.kind_of_isKeyword ends)
    have word : isOpener t = false := by
      cases word : isOpener t with
      | false => rfl
      | true => simp [not_end_of_isOpener word] at ends
    simp [closesAll, opens, closes, word, ends]

/-- Well nested runs, each but the last with what closes an open bracket or an open block behind it. -/
inductive Closings : Nat → Nat → List Token → Prop
  | last {b : List Token} : Nested isOpener b → Closings 0 0 b
  | bracket {blocks brackets : Nat} {c : Token} {g r : List Token} : Enclosed isOpener g →
      c.isCloseBracket = true → Closings blocks brackets r → Closings blocks (brackets + 1) (g ++ c :: r)
  | block {blocks : Nat} {e : Token} {b r : List Token} : Nested isOpener b → e.isKeyword "end" = true →
      Closings blocks 0 r → Closings (blocks + 1) 0 (b ++ e :: r)

namespace Closings

variable {blocks brackets : Nat} {ts : List Token}

theorem nested_append {b : List Token} (nested : Nested isOpener b) (closings : Closings blocks 0 ts) :
    Closings blocks 0 (b ++ ts) := by
  cases closings with
  | last more => exact .last (nested.append more)
  | block more ends rest =>
    rw [← List.append_assoc]
    exact .block (nested.append more) ends rest

theorem enclosed_append {g : List Token} (enclosed : Enclosed isOpener g)
    (closings : Closings blocks (brackets + 1) ts) : Closings blocks (brackets + 1) (g ++ ts) := by
  cases closings with
  | bracket more closes rest =>
    rw [← List.append_assoc]
    exact .bracket (enclosed.append more) closes rest

/-- A token that neither opens nor closes anything. -/
theorem plain {t : Token} (opens : t.isOpenBracket = false) (closes : t.isCloseBracket = false)
    (word : isOpener t = false) (ends : t.isKeyword "end" = false ∨ brackets ≠ 0)
    (closings : Closings blocks brackets ts) : Closings blocks brackets (t :: ts) := by
  cases brackets with
  | zero =>
    have other : t.isKeyword "end" = false := ends.resolve_right (by simp)
    exact closings.nested_append (.plain opens closes word other .nil)
  | succ brackets => exact closings.enclosed_append (.plain opens closes word .nil)

/-- What closes one bracket more closes the bracket in front of it. -/
theorem openBracket {t : Token} (opens : t.isOpenBracket = true) (closings : Closings blocks (brackets + 1) ts) :
    Closings blocks brackets (t :: ts) := by
  cases closings with
  | @bracket _ _ c g r enclosed closes rest =>
    have cut : t :: (g ++ c :: r) = (t :: (g ++ [c])) ++ r := by simp
    rw [cut]
    cases brackets with
    | zero => exact rest.nested_append (.group opens enclosed closes .nil)
    | succ brackets => exact rest.enclosed_append (.group opens enclosed closes .nil)

theorem opener {t : Token} (word : isOpener t = true) (closings : Closings (blocks + 1) 0 ts) :
    Closings blocks 0 (t :: ts) := by
  cases closings with
  | @block _ e b r nested ends rest =>
    have cut : t :: (b ++ e :: r) = (t :: (b ++ [e])) ++ r := by simp
    rw [cut]
    exact rest.nested_append (.block word nested ends .nil)

end Closings

theorem closings_of_closesAll {blocks brackets : Nat} {ts : List Token}
    (closes : closesAll blocks brackets ts = true) : Closings blocks brackets ts := by
  -- Each token comes to stand in front of the first of the runs into which the rest is cut.
  fun_induction closesAll blocks brackets ts with
  | case1 blocks brackets =>
    simp only [Bool.and_eq_true, beq_iff_eq] at closes
    obtain ⟨rfl, rfl⟩ := closes
    exact .last .nil
  | case2 blocks brackets t r opens ih => exact (ih closes).openBracket opens
  | case3 blocks brackets t r opens closing ih =>
    simp only [Bool.and_eq_true, bne_iff_ne] at closes
    obtain ⟨n, rfl⟩ := Nat.exists_eq_succ_of_ne_zero closes.1
    exact .bracket .nil closing (ih closes.2)
  | case4 blocks brackets t r opens closing word ih =>
    simp only [Bool.and_eq_true, beq_iff_eq] at closes
    obtain ⟨rfl, rest⟩ := closes
    exact (ih rest).opener word
  | case5 blocks brackets t r opens closing word ends ih =>
    simp only [Bool.and_eq_true, beq_iff_eq, bne_iff_ne] at closes ends
    obtain ⟨n, rfl⟩ := Nat.exists_eq_succ_of_ne_zero closes.1
    obtain ⟨keyword, rfl⟩ := ends
    exact .block .nil keyword (ih closes.2)
  | case6 blocks brackets t r opens closing word ends ih =>
    rw [Bool.not_eq_true] at opens closing word
    rw [Bool.not_eq_true, Bool.and_eq_false_iff, beq_eq_false_iff_ne] at ends
    exact (ih closes).plain opens closing word ends

/-- A run is well nested exactly when all its blocks and brackets can be counted down. -/
theorem nested_iff (b : List Token) : Nested isOpener b ↔ closesAll 0 0 b = true := by
  constructor
  · intro nested
    have closes := countsBlocks_closesAll.nested nested 0 [] []
    rw [List.append_nil] at closes
    exact closes
  · intro closes
    cases closings_of_closesAll closes with
    | last nested => exact nested

instance (b : List Token) : Decidable (Nested isOpener b) :=
  decidable_of_iff _ (nested_iff b).symm

/-- Passing over a block stops right behind the `end` that its body leaves for it, whatever follows. Without that
`end` it goes to the end of input and tells so. -/
theorem skipBlock_matching_end {body : List Token} (nested : Nested isOpener body) {e : Token}
    (ends : e.isKeyword "end" = true) (passed rest : List Token) :
    skipBlock ⟨passed, body ++ e :: rest⟩ = (true, ⟨e :: (body.reverse ++ passed), rest⟩) ∧
      skipBlock ⟨passed, body⟩ = (false, ⟨body.reverse ++ passed, []⟩) :=
  ⟨skipBlock_nested nested ends passed rest, skipBlock_unended nested passed⟩

/-- The body of a loop with a block in it, in which an `end` is an index. -/
theorem skipBlock_matching_end_index :
    Nested isOpener (tokenize "\nif x(end)\ny = [1 end];\nend\n") ∧
      (⟨.keyword, "end", 5⟩ : Token).isKeyword "end" = true ∧
      skipBlock ⟨[⟨.keyword, "while", 1⟩], tokenize "\nif x(end)\ny = [1 end];\nend\n" ++
          ⟨.keyword, "end", 5⟩ :: tokenize "end"⟩ =
        (true, ⟨⟨.keyword, "end", 5⟩ :: ((tokenize "\nif x(end)\ny = [1 end];\nend\n").reverse ++
          [⟨.keyword, "while", 1⟩]), tokenize "end"⟩) ∧
      skipBlock ⟨[⟨.keyword, "while", 1⟩], tokenize "\nif x(end)\ny = [1 end];\nend\n"⟩ =
        (false, ⟨(tokenize "\nif x(end)\ny = [1 end];\nend\n").reverse ++ [⟨.keyword, "while", 1⟩], []⟩) := by
  have nested : Nested isOpener (tokenize "\nif x(end)\ny = [1 end];\nend\n") := by decide +kernel
  have ends : (⟨.keyword, "end", 5⟩ : Token).isKeyword "end" = true := by decide
  exact ⟨nested, ends, skipBlock_matching_end nested ends [⟨.keyword, "while", 1⟩] (tokenize "end")⟩

end Cursor

end MatlabOutline
