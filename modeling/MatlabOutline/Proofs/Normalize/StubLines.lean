import MatlabOutline.Proofs.Normalize.Relisted
import MatlabOutline.Normalize.Stub

/-!
When expanding method declarations changes nothing. A run of lines is settled if none of them declares
a method without a body (`Settled`); well nested runs inside a function are (`Nested.sheltered`).
-/

namespace MatlabOutline

/-- From nesting `n` on no line declares a method without a body. -/
def Settled (n : Nesting) : List (List Token) → Prop
  | [] => True
  | line :: r => (n.inMethods && isStubLine line) = false ∧ Settled (line.foldl Nesting.step n) r

/-- Lines that declare no method without a body are kept, whatever lines come behind them. -/
theorem expandLines_settled_append {n : Nesting} {lines : List (List Token)} (settled : Settled n lines)
    (more : List (List Token)) :
    expandLines n (lines ++ more) =
      lines.map Token.concat ++ expandLines (lines.flatten.foldl Nesting.step n) more := by
  induction lines generalizing n with
  | nil => rfl
  | cons line lines ih =>
    rw [List.cons_append, expandLines, settled.1, if_neg (by simp), ih settled.2, List.map_cons, List.flatten_cons,
      List.foldl_append, List.cons_append]

theorem expandLines_settled {n : Nesting} {lines : List (List Token)} (settled : Settled n lines) :
    expandLines n lines = lines.map Token.concat := by
  simpa [expandLines] using expandLines_settled_append settled []

theorem flatten_tokenLines (ts : List Token) : (tokenLines ts).flatten = ts := by
  fun_induction tokenLines ts <;> simp_all

theorem mem_of_mem_tokenLines {ts line : List Token} (listed : line ∈ tokenLines ts) {t : Token}
    (member : t ∈ line) : t ∈ ts := by
  rw [← flatten_tokenLines ts]
  exact List.mem_flatten.mpr ⟨line, listed, member⟩

theorem join_map_concat (lines : List (List Token)) :
    String.join (lines.map Token.concat) = Token.concat lines.flatten := by
  induction lines with
  | nil => rfl
  | cons line lines ih => simp [String.join_cons, ih]

theorem expandStubs_of_settled {code : String} (settled : Settled {} (tokenLines (tokenize code))) :
    expandStubs code = code := by
  rw [expandStubs, expandLines_settled settled, join_map_concat, flatten_tokenLines, concat_tokenize]

theorem tokenLines_within {t : Token} {r l : List Token} {ls : List (List Token)}
    (within : t.isNewline = false) (cut : tokenLines r = l :: ls) :
    tokenLines (t :: r) = (t :: l) :: ls := by
  simp [tokenLines, within, cut]

/-- A run that is empty or ends with a line end is cut apart from what follows. -/
theorem tokenLines_append {ts : List Token} (ended : ts.getLast?.all Token.isNewline = true)
    (us : List Token) : tokenLines (ts ++ us) = tokenLines ts ++ tokenLines us := by
  induction ts with
  | nil => rfl
  | cons t ts ih =>
    by_cases newline : t.isNewline = true
    · have rest : ts.getLast?.all Token.isNewline = true := by
        rcases ts with _ | ⟨u, ts⟩
        · rfl
        · simpa using ended
      simp only [List.cons_append, tokenLines, newline, if_true, ih rest]
    · rcases ts with _ | ⟨u, ts⟩
      · simp [newline] at ended
      · have rest := ih (by simpa using ended)
        have filled : tokenLines (u :: ts) ≠ [] := by
          intro empty
          have nothing := flatten_tokenLines (u :: ts)
          simp [empty] at nothing
        obtain ⟨l, ls, lines⟩ := List.exists_cons_of_ne_nil filled
        rw [Bool.not_eq_true] at newline
        rw [tokenLines_within newline lines, List.cons_append,
          tokenLines_within newline (rest.trans (by rw [lines, List.cons_append]))]
        rfl

theorem settled_append {n : Nesting} {lines more : List (List Token)} (first : Settled n lines)
    (second : Settled (lines.flatten.foldl Nesting.step n) more) : Settled n (lines ++ more) := by
  induction lines generalizing n with
  | nil => exact second
  | cons line lines ih =>
    rw [List.flatten_cons, List.foldl_append] at second
    exact ⟨first.1, ih first.2 second⟩

theorem settled_tokenLines_append {n : Nesting} {ts us : List Token}
    (ended : ts.getLast?.all Token.isNewline = true) (first : Settled n (tokenLines ts))
    (second : Settled (ts.foldl Nesting.step n) (tokenLines us)) : Settled n (tokenLines (ts ++ us)) := by
  rw [tokenLines_append ended]
  exact settled_append first (by rwa [flatten_tokenLines])

/-- One line with its line end. -/
theorem tokenLines_line {ts : List Token} (within : ∀ t ∈ ts, t.isNewline = false) {e : Token}
    (ends : e.isNewline = true) : tokenLines (ts ++ [e]) = [ts ++ [e]] := by
  induction ts with
  | nil => simp [tokenLines, ends]
  | cons t ts ih =>
    simp only [List.forall_mem_cons] at within
    exact tokenLines_within within.1 (ih within.2)

/-- No token stands directly inside a `methods` block. -/
def Sheltered (n : Nesting) : List Token → Prop
  | [] => True
  | t :: r => n.inMethods = false ∧ Sheltered (n.step t) r

theorem sheltered_append {n : Nesting} {ts us : List Token} :
    Sheltered n (ts ++ us) ↔ Sheltered n ts ∧ Sheltered (ts.foldl Nesting.step n) us := by
  induction ts generalizing n with
  | nil => simp [Sheltered]
  | cons t ts ih => simp only [List.cons_append, Sheltered, ih, List.foldl_cons, and_assoc]

theorem mem_tokenLines_ne {ts line : List Token} (member : line ∈ tokenLines ts) : line ≠ [] := by
  fun_induction tokenLines ts with
  | case1 => simp at member
  | case2 t r newline ih =>
    rcases List.mem_cons.mp member with first | later
    · simp [first]
    · exact ih later
  | case3 t r newline empty ih =>
    simp only [List.mem_singleton] at member
    simp [member]
  | case4 t r newline l ls cut ih =>
    rcases List.mem_cons.mp member with first | later
    · simp [first]
    · exact ih (by simp [cut, later])

theorem settled_of_sheltered {n : Nesting} {lines : List (List Token)} (filled : ∀ l ∈ lines, l ≠ [])
    (sheltered : Sheltered n lines.flatten) : Settled n lines := by
  induction lines generalizing n with
  | nil => trivial
  | cons line lines ih =>
    simp only [List.forall_mem_cons] at filled
    rw [List.flatten_cons, sheltered_append] at sheltered
    obtain ⟨t, r, rfl⟩ := List.exists_cons_of_ne_nil filled.1
    exact ⟨by simp [sheltered.1.1], ih filled.2 sheltered.2⟩

/-- A keyword that bodies of functions do not hold. -/
def Token.isForeign (t : Token) : Bool :=
  t.isKeyword "arguments" || t.isKeyword "classdef"

namespace Nesting

/-- The innermost block is neither a class nor a `methods` block. -/
def Inside (n : Nesting) : Prop :=
  n.blocks.head? ≠ some "classdef" ∧ n.blocks.head? ≠ some "methods"

theorem Inside.not_inMethods {n : Nesting} (inside : n.Inside) : n.inMethods = false := by
  simp [inMethods, inside.2]

theorem step_open {n : Nesting} {t : Token} (opens : t.isOpenBracket = true) :
    n.step t = { n with brackets := n.brackets + 1 } := by
  simp [step, Token.kind_of_isOpenBracket opens, opens]

theorem step_close {n : Nesting} {t : Token} (closes : t.isCloseBracket = true) :
    n.step t = { n with brackets := n.brackets - 1 } := by
  simp [step, Token.kind_of_isCloseBracket closes, closes, Token.isOpenBracket_of_isCloseBracket closes]

theorem step_end {n : Nesting} {t : Token} (ends : t.isKeyword "end" = true) (outer : n.brackets = 0) :
    n.step t = { n with blocks := n.blocks.tail } := by
  simp only [Token.isKeyword, Token.is, Bool.and_eq_true, beq_iff_eq] at ends
  simp [step, keyword, ends.1, ends.2, outer]

theorem step_word {n : Nesting} {t : Token} (word : t.opensBlock = true) :
    n.step t = { n with blocks := t.text :: n.blocks } := by
  simp only [Token.opensBlock, Bool.and_eq_true, beq_iff_eq, List.contains_iff_mem] at word
  obtain ⟨kind, member⟩ := word
  have cases : t.text ∈ openingWords → n.keyword t.text = { n with blocks := t.text :: n.blocks } := by
    simp only [openingWords, List.mem_cons, List.not_mem_nil, or_false]
    rintro (h | h | h | h | h | h | h | h) <;> rw [h] <;> rfl
  simp [step, kind, cases member]

theorem step_plain {n : Nesting} {t : Token} (inside : n.Inside) (opens : t.isOpenBracket = false)
    (closes : t.isCloseBracket = false) (word : t.opensBlock = false) (foreign : t.isForeign = false)
    (ends : t.isKeyword "end" = false ∨ n.brackets ≠ 0) : n.step t = n := by
  by_cases kind : t.kind = .keyword
  · have first : (t.text == "end" && n.brackets == 0) = false := by
      rcases ends with other | within
      · simp [Token.isKeyword, Token.is, kind] at other
        simp [other]
      · simp [within]
    simp only [Token.isForeign, Token.isKeyword, Token.is, kind, Token.opensBlock, beq_self_eq_true,
      Bool.true_and, Bool.or_eq_false_iff] at foreign word
    have parent : Nesting.parent t.text = "classdef" := by simp [Nesting.parent, foreign.1]
    simp only [step, kind, keyword, first, foreign.2, parent, opensBlock, word, Bool.false_or]
    cases block : isBlockWord t.text <;> simp [inside.1]
  · simp [step, kind, opens, closes]

end Nesting

theorem Enclosed.sheltered {g : List Token} (enclosed : Enclosed Token.opensBlock g) {n : Nesting}
    (inside : n.Inside) (within : n.brackets ≠ 0) (own : ∀ t ∈ g, t.isForeign = false) :
    Sheltered n g ∧ g.foldl Nesting.step n = n := by
  induction enclosed generalizing n with
  | nil => exact ⟨trivial, rfl⟩
  | plain opened closed word _ ih =>
    simp only [List.forall_mem_cons] at own
    have step := Nesting.step_plain inside opened closed word own.1 (.inr within)
    rw [Sheltered, List.foldl_cons, step]
    obtain ⟨rest, same⟩ := ih inside within own.2
    exact ⟨⟨inside.not_inMethods, rest⟩, same⟩
  | group opened _ closed _ innerIH restIH =>
    simp only [List.forall_mem_cons, List.forall_mem_append] at own
    have bracketed : Nesting.Inside { n with brackets := n.brackets + 1 } := inside
    obtain ⟨inner, through⟩ := innerIH bracketed (by simp) own.2.1
    obtain ⟨rest, same⟩ := restIH inside within own.2.2.2
    simp only [Sheltered, sheltered_append, List.foldl_cons, List.foldl_append, Nesting.step_open opened,
      through, Nesting.step_close closed, Nat.add_sub_cancel]
    exact ⟨⟨inside.not_inMethods, inner, bracketed.not_inMethods, rest⟩, same⟩

/-- A well nested run inside a function is sheltered, and leaves the nesting as it was. -/
theorem Nested.sheltered {b : List Token} (nested : Nested Token.opensBlock b) {n : Nesting}
    (inside : n.Inside) (outer : n.brackets = 0) (own : ∀ t ∈ b, t.isForeign = false) :
    Sheltered n b ∧ b.foldl Nesting.step n = n := by
  induction nested generalizing n with
  | nil => exact ⟨trivial, rfl⟩
  | plain opened closed word ends _ ih =>
    simp only [List.forall_mem_cons] at own
    have step := Nesting.step_plain inside opened closed word own.1 (.inl ends)
    rw [Sheltered, List.foldl_cons, step]
    obtain ⟨rest, same⟩ := ih inside outer own.2
    exact ⟨⟨inside.not_inMethods, rest⟩, same⟩
  | group opened enclosed closed _ ih =>
    simp only [List.forall_mem_cons, List.forall_mem_append] at own
    have bracketed : Nesting.Inside { n with brackets := n.brackets + 1 } := inside
    obtain ⟨inner, through⟩ := enclosed.sheltered bracketed (by simp) own.2.1
    obtain ⟨rest, same⟩ := ih inside outer own.2.2.2
    simp only [Sheltered, sheltered_append, List.foldl_cons, List.foldl_append, Nesting.step_open opened,
      through, Nesting.step_close closed, Nat.add_sub_cancel]
    exact ⟨⟨inside.not_inMethods, inner, bracketed.not_inMethods, rest⟩, same⟩
  | @block k e inner b word _ ends _ innerIH restIH =>
    simp only [List.forall_mem_cons, List.forall_mem_append] at own
    have deeper : Nesting.Inside { n with blocks := k.text :: n.blocks } := by
      constructor
      · rintro h
        simp [Token.opensBlock, Option.some.inj h, openingWords] at word
      · rintro h
        simp [Token.opensBlock, Option.some.inj h, openingWords] at word
    obtain ⟨inner, through⟩ := innerIH deeper outer own.2.1
    obtain ⟨rest, same⟩ := restIH inside outer own.2.2.2
    simp only [Sheltered, sheltered_append, List.foldl_cons, List.foldl_append, Nesting.step_word word,
      through, Nesting.step_end (n := { n with blocks := k.text :: n.blocks }) ends outer, List.tail_cons]
    exact ⟨⟨inside.not_inMethods, inner, deeper.not_inMethods, rest⟩, same⟩

end MatlabOutline
