import MatlabOutline.Proofs.Normalize.StubLines

/-!
Two ways to find the end of a function: expanding method declarations keeps a stack of open blocks, and
passing over a block counts them. Main statement: they find the same `end` exactly when no `arguments` that
the stack leaves out comes before it (`skipBlock_agrees_iff`).
-/

namespace MatlabOutline

namespace Nesting

/-- The nestings behind the tokens of a run. -/
def after (n : Nesting) : List Token → List Nesting
  | [] => []
  | t :: r => n.step t :: after (n.step t) r

/-- The nestings behind the tokens of lines. A line that declares methods without a body changes none. -/
def afterLines (n : Nesting) : List (List Token) → List Nesting
  | [] => []
  | line :: r =>
    if n.inMethods && isStubLine line then line.map (fun _ => n) ++ afterLines n r
    else n.after line ++ afterLines (line.foldl step n) r

theorem getLastD_after (n : Nesting) (ts : List Token) : (n.after ts).getLastD n = ts.foldl step n := by
  induction ts generalizing n with
  | nil => rfl
  | cons t ts ih => rw [after, List.getLastD_cons, ih, List.foldl_cons]

theorem after_append (n : Nesting) (ts us : List Token) :
    n.after (ts ++ us) = n.after ts ++ (ts.foldl step n).after us := by
  induction ts generalizing n with
  | nil => rfl
  | cons t ts ih => simp [after, ih]

/-- An `arguments` that opens no block, since it is not directly inside a function. -/
def isStray (n : Nesting) (t : Token) : Bool :=
  t.isKeyword "arguments" && n.blocks.head? != some "function"

def hasStray (n : Nesting) : List Token → Bool
  | [] => false
  | t :: r => n.isStray t || hasStray (n.step t) r

/-- The nesting at the start of a function that stands in the blocks `outer`. -/
def ofFunction (outer : List String) : Nesting :=
  ⟨"function" :: outer, 0⟩

/-- A function in the blocks `outer` has ended. -/
def isBehind (outer : List String) (n : Nesting) : Bool :=
  n.blocks.length ≤ outer.length

end Nesting

/-- The expansion of further lines starts from the nesting behind the lines before them. -/
theorem expandLines_append (n : Nesting) (lines more : List (List Token)) :
    expandLines n (lines ++ more) =
      expandLines n lines ++ expandLines ((n.afterLines lines).getLastD n) more := by
  induction lines generalizing n with
  | nil => rfl
  | cons line lines ih =>
    have last (xs ys : List Nesting) : (xs ++ ys).getLastD n = ys.getLastD (xs.getLastD n) := by
      simp [List.getLastD_eq_getLast?, List.getLast?_append]
    rw [List.cons_append, expandLines, expandLines, Nesting.afterLines]
    split
    · have kept : (line.map fun _ => n).getLastD n = n := by
        rw [List.getLastD_eq_getLast?, List.getLast?_map]
        cases line.getLast? <;> rfl
      rw [last, kept, ih, List.cons_append]
    · rw [last, Nesting.getLastD_after, ih, List.cons_append]

/-- The position of the token that ends a function in the blocks `outer`, by the stack of open blocks. -/
def functionEnd? (outer : List String) (ts : List Token) : Option Nat :=
  ((Nesting.ofFunction outer).afterLines (tokenLines ts)).findIdx? (Nesting.isBehind outer)

/-- The nesting is inside a function in the blocks `outer`, with the blocks `upper` open in it. -/
structure Nesting.Within (outer upper : List String) (n : Nesting) : Prop where
  blocks : n.blocks = upper ++ "function" :: outer
  opening : ∀ w ∈ upper, w ∈ "arguments" :: openingWords

namespace Nesting.Within

variable {outer upper : List String} {n : Nesting}

theorem not_isBehind (within : n.Within outer upper) : n.isBehind outer = false := by
  rw [isBehind, within.blocks, decide_eq_false_iff_not, List.length_append, List.length_cons]
  omega

theorem inside (within : n.Within outer upper) : n.Inside := by
  have head : ∀ w ∈ n.blocks.head?, w ∈ "arguments" :: openingWords := by
    rcases upper with _ | ⟨u, upper⟩
    · simp [within.blocks, openingWords]
    · simpa [within.blocks] using within.opening u (by simp)
  constructor <;> intro same <;> simpa [openingWords] using head _ same

theorem push (within : n.Within outer upper) {w : String} (opens : w ∈ "arguments" :: openingWords) :
    Within outer (w :: upper) { n with blocks := w :: n.blocks } := by
  refine ⟨by rw [within.blocks, List.cons_append], ?_⟩
  rw [List.forall_mem_cons]
  exact ⟨opens, within.opening⟩

theorem pop {w : String} (within : n.Within outer (w :: upper)) :
    Within outer upper { n with blocks := n.blocks.tail } := by
  have opening := within.opening
  rw [List.forall_mem_cons] at opening
  exact ⟨by rw [within.blocks]; rfl, opening.2⟩

end Nesting.Within

namespace Nesting

theorem step_arguments {n : Nesting} {t : Token} (word : t.isKeyword "arguments" = true) :
    n.step t = if n.isStray t then n else { n with blocks := t.text :: n.blocks } := by
  rw [isStray, word]
  simp only [Token.isKeyword, Token.is, Bool.and_eq_true, beq_iff_eq] at word
  have block : isBlockWord "arguments" = true := by decide
  by_cases direct : n.blocks.head? = some "function" <;>
    simp [step, keyword, word.1, word.2, block, parent, direct]

theorem not_isStray {t : Token} (word : t.isKeyword "arguments" = false) (n : Nesting) :
    n.isStray t = false := by
  rw [isStray, word, Bool.false_and]

end Nesting

theorem Cursor.isOpener_eq (t : Token) : isOpener t = (t.opensBlock || t.isKeyword "arguments") := by
  simp [isOpener, Token.opensBlock, Token.isKeyword, Token.is, Bool.and_or_distrib_left]

section Step

open Cursor

variable {outer upper : List String} {n : Nesting} {t : Token}

/-- The token does to the count of open blocks what it does to the stack `upper`, but that it may be
counted only. -/
def Nesting.Counted (outer upper : List String) (n : Nesting) (t : Token) : Prop :=
  ∃ upper', (n.step t).Within outer upper' ∧ ∀ lost passed r,
    skipBlockFrom (upper.length + lost) n.brackets passed (t :: r) =
      skipBlockFrom (upper'.length + (lost + (n.isStray t).toNat)) (n.step t).brackets (t :: passed) r

theorem Nesting.Within.arguments (within : n.Within outer upper) (word : t.isKeyword "arguments" = true) :
    n.Counted outer upper t := by
  have opener : isOpener t = true := by simp [isOpener_eq, word]
  have text : t.text = "arguments" := by
    simp only [Token.isKeyword, Token.is, Bool.and_eq_true, beq_iff_eq] at word
    exact word.2
  have step := step_arguments (n := n) word
  cases stray : n.isStray t with
  | true =>
    rw [stray, if_pos rfl] at step
    refine ⟨upper, by rwa [step], fun lost passed r => ?_⟩
    rw [skipBlockFrom_word _ _ _ _ opener, step, stray]
    rfl
  | false =>
    rw [stray, if_neg (by simp)] at step
    refine ⟨t.text :: upper, by rw [step]; exact within.push (by simp [text]), fun lost passed r => ?_⟩
    rw [skipBlockFrom_word _ _ _ _ opener, step, stray, List.length_cons, Nat.add_right_comm]
    rfl

/-- A token that does not end the function moves the stack and the count alike, but for a stray
`arguments`, which is counted only. -/
theorem Nesting.Within.counted (within : n.Within outer upper) (plain : t.isKeyword "classdef" = false)
    (going : ¬ (t.isKeyword "end" = true ∧ n.brackets = 0 ∧ upper = [])) : n.Counted outer upper t := by
  by_cases word : t.isKeyword "arguments" = true
  · exact within.arguments word
  rw [Bool.not_eq_true] at word
  rw [Counted, not_isStray word, Bool.toNat_false]
  by_cases opens : t.opensBlock = true
  · have member : t.text ∈ openingWords := by
      simp only [Token.opensBlock, Bool.and_eq_true, List.contains_iff_mem] at opens
      exact opens.2
    rw [step_word opens]
    refine ⟨t.text :: upper, within.push (List.mem_cons_of_mem _ member), fun lost passed r => ?_⟩
    rw [skipBlockFrom_word _ _ _ _ (by simp [isOpener_eq, opens]), List.length_cons, Nat.add_right_comm]
    rfl
  rw [Bool.not_eq_true] at opens
  have opener : isOpener t = false := by simp [isOpener_eq, opens, word]
  by_cases ends : t.isKeyword "end" = true ∧ n.brackets = 0
  · rw [step_end ends.1 ends.2]
    rcases upper with _ | ⟨w, upper⟩
    · exact absurd ⟨ends.1, ends.2, rfl⟩ going
    refine ⟨upper, within.pop, fun lost passed r => ?_⟩
    rw [ends.2, List.length_cons, Nat.add_right_comm, skipBlockFrom_end _ _ _ ends.1]
    rfl
  by_cases opened : t.isOpenBracket = true
  · rw [step_open opened]
    refine ⟨upper, ⟨within.blocks, within.opening⟩, fun lost passed r => ?_⟩
    rw [skipBlockFrom_open _ _ _ _ opened]
    rfl
  rw [Bool.not_eq_true] at opened
  by_cases closed : t.isCloseBracket = true
  · rw [step_close closed]
    refine ⟨upper, ⟨within.blocks, within.opening⟩, fun lost passed r => ?_⟩
    rw [skipBlockFrom_close _ _ _ _ closed]
    rfl
  rw [Bool.not_eq_true] at closed
  have other : t.isKeyword "end" = false ∨ n.brackets ≠ 0 := by
    by_cases word : t.isKeyword "end" = true
    · exact .inr fun outside => ends ⟨word, outside⟩
    · exact .inl (by simpa using word)
  rw [step_plain within.inside opened closed opens (by simp [Token.isForeign, word, plain]) other]
  refine ⟨upper, within, fun lost passed r => ?_⟩
  rw [skipBlockFrom_plain _ _ _ _ other opener opened closed]
  rfl

theorem Nesting.Within.last (within : n.Within outer []) (ends : t.isKeyword "end" = true)
    (outside : n.brackets = 0) : (n.step t).isBehind outer = true := by
  rw [step_end ends outside, isBehind, within.blocks]
  simp

end Step

/-- A run that does not end the function stays within it. -/
theorem Nesting.Within.run {outer upper : List String} {n : Nesting} (within : n.Within outer upper)
    {ts : List Token} (plain : ∀ t ∈ ts, t.isKeyword "classdef" = false)
    (going : (n.after ts).findIdx? (isBehind outer) = none) :
    ∃ upper', (ts.foldl Nesting.step n).Within outer upper' := by
  induction ts generalizing n upper with
  | nil => exact ⟨upper, within⟩
  | cons t ts ih =>
    rw [List.forall_mem_cons] at plain
    simp only [List.findIdx?_eq_none_iff, after, List.forall_mem_cons] at going ih
    obtain ⟨upper', further, -⟩ := within.counted plain.1 fun ⟨ends, outside, empty⟩ => by
      subst empty
      simp [within.last ends outside] at going
    exact ih further plain.2 going.2

/-- As long as the function has not ended, no line declares a method, so that every token counts. -/
theorem findIdx?_afterLines {outer upper : List String} {n : Nesting} (within : n.Within outer upper)
    {lines : List (List Token)} (plain : ∀ t ∈ lines.flatten, t.isKeyword "classdef" = false) :
    (n.afterLines lines).findIdx? (Nesting.isBehind outer) =
      (n.after lines.flatten).findIdx? (Nesting.isBehind outer) := by
  induction lines generalizing n upper with
  | nil => rfl
  | cons line lines ih =>
    rw [List.flatten_cons, List.forall_mem_append] at plain
    rw [Nesting.afterLines, within.inside.not_inMethods, Bool.false_and, if_neg (by simp), List.flatten_cons,
      Nesting.after_append, List.findIdx?_append, List.findIdx?_append]
    cases first : (n.after line).findIdx? (Nesting.isBehind outer) with
    | some i => rfl
    | none =>
      obtain ⟨upper', further⟩ := within.run plain.1 first
      rw [ih further plain.2]

namespace Cursor

theorem position_skipBlockFrom {inner brackets : Nat} {passed ts : List Token}
    (found : (skipBlockFrom inner brackets passed ts).1 = true) :
    passed.length < (skipBlockFrom inner brackets passed ts).2.position := by
  fun_induction skipBlockFrom inner brackets passed ts with
  | case1 => simp at found
  | case2 => simp [position]
  | case3 brackets passed t r ends n ih => exact Nat.lt_of_succ_lt (ih found)
  | case4 inner brackets passed t r ends opens ih => exact Nat.lt_of_succ_lt (ih found)
  | case5 inner brackets passed t r ends opens opened ih => exact Nat.lt_of_succ_lt (ih found)
  | case6 inner brackets passed t r ends opens opened closed ih => exact Nat.lt_of_succ_lt (ih found)
  | case7 inner brackets passed t r ends opens opened closed ih => exact Nat.lt_of_succ_lt (ih found)

/-- The block is found to end at the token at `i`. -/
def EndsAt (found : Bool × Cursor) (i : Nat) : Prop :=
  found.1 = true ∧ found.2.position = i + 1

/-- The count that is ahead of the stack by `lost` does not end before it, and ends with it only if nothing
was lost. -/
theorem skipBlockFrom_endsAt {outer upper : List String} {n : Nesting} (within : n.Within outer upper)
    {ts : List Token} (plain : ∀ t ∈ ts, t.isKeyword "classdef" = false) (lost : Nat) (passed : List Token) :
    match (n.after ts).findIdx? (Nesting.isBehind outer) with
    | none => (skipBlockFrom (upper.length + lost) n.brackets passed ts).1 = false
    | some i => EndsAt (skipBlockFrom (upper.length + lost) n.brackets passed ts) (passed.length + i) ↔
        lost = 0 ∧ n.hasStray (ts.take i) = false := by
  induction ts generalizing n upper lost passed with
  | nil => rfl
  | cons t ts ih =>
    rw [List.forall_mem_cons] at plain
    rw [Nesting.after, List.findIdx?_cons]
    by_cases last : t.isKeyword "end" = true ∧ n.brackets = 0 ∧ upper = []
    · obtain ⟨ends, outside, rfl⟩ := last
      rw [within.last ends outside, if_pos rfl, outside, List.length_nil, Nat.zero_add]
      rcases lost with _ | lost
      · simp [skipBlockFrom, ends, EndsAt, position, Nesting.hasStray]
      · rw [skipBlockFrom_end _ _ _ ends]
        simp only [EndsAt]
        refine iff_of_false ?_ (by simp)
        rintro ⟨found, position⟩
        have further := position_skipBlockFrom found
        rw [position, List.length_cons] at further
        omega
    · obtain ⟨upper', further, step⟩ := within.counted plain.1 last
      rw [further.not_isBehind, if_neg (by simp), step]
      have rest := ih further plain.2 (lost + (n.isStray t).toNat) (t :: passed)
      cases found : ((n.step t).after ts).findIdx? (Nesting.isBehind outer) with
      | none =>
        rw [found] at rest
        exact rest
      | some i =>
        simp only [found] at rest
        simp only [Option.map_some, List.take_succ_cons, Nesting.hasStray, Bool.or_eq_false_iff]
        have moved : (t :: passed).length + i = passed.length + (i + 1) := by
          rw [List.length_cons]
          omega
        rw [moved] at rest
        rw [rest]
        cases n.isStray t <;> simp

end Cursor

/-- Counting open blocks and keeping a stack of them find the same end of a function exactly when no
`arguments` before it stands in a block other than a function. -/
theorem skipBlock_agrees_iff {ts : List Token} (plain : ∀ t ∈ ts, t.isKeyword "classdef" = false)
    (outer : List String) :
    (∀ i, Cursor.EndsAt (Cursor.ofTokens ts).skipBlock i ↔ functionEnd? outer ts = some i) ↔
      ∀ i, functionEnd? outer ts = some i → (Nesting.ofFunction outer).hasStray (ts.take i) = false := by
  have within : (Nesting.ofFunction outer).Within outer [] := ⟨rfl, by simp⟩
  have lines : functionEnd? outer ts =
      ((Nesting.ofFunction outer).after ts).findIdx? (Nesting.isBehind outer) := by
    rw [functionEnd?, findIdx?_afterLines within (by rwa [flatten_tokenLines]), flatten_tokenLines]
  have count := Cursor.skipBlockFrom_endsAt within plain 0 []
  rw [← lines] at count
  cases found : functionEnd? outer ts with
  | none =>
    rw [found] at count
    have missed : (Cursor.ofTokens ts).skipBlock.1 = false := count
    simp [Cursor.EndsAt, missed]
  | some e =>
    simp only [found, List.length_nil, Nat.zero_add, true_and] at count
    change Cursor.EndsAt (Cursor.ofTokens ts).skipBlock e ↔ _ at count
    simp only [Option.some.injEq, forall_eq']
    refine ⟨fun agree => count.mp ((agree e).mpr rfl), fun clear i => ?_⟩
    have ended := count.mpr clear
    constructor
    · intro other
      have same := ended.2.symm.trans other.2
      omega
    · rintro rfl
      exact ended

/-- An `arguments` block directly inside the function, and an `end` that is an index. -/
theorem skipBlock_agrees_direct :
    (∀ t ∈ tokenize "arguments\nx\nend\nif x(end)\nend\nend\n", t.isKeyword "classdef" = false) ∧
      ∀ i, Cursor.EndsAt (Cursor.ofTokens (tokenize "arguments\nx\nend\nif x(end)\nend\nend\n")).skipBlock i ↔
        functionEnd? ["methods", "classdef"] (tokenize "arguments\nx\nend\nif x(end)\nend\nend\n") = some i := by
  have plain : ∀ t ∈ tokenize "arguments\nx\nend\nif x(end)\nend\nend\n", t.isKeyword "classdef" = false := by
    decide +kernel
  have found : functionEnd? ["methods", "classdef"] (tokenize "arguments\nx\nend\nif x(end)\nend\nend\n") =
      some 15 := by decide +kernel
  refine ⟨plain, (skipBlock_agrees_iff plain ["methods", "classdef"]).mpr fun i ended => ?_⟩
  obtain rfl : 15 = i := Option.some.inj (found.symm.trans ended)
  decide +kernel

/-- An `arguments` inside another block is counted, though it opens none on the stack: the end of the
function is passed. -/
theorem skipBlock_misses_end :
    (∀ t ∈ tokenize "if a\narguments\nend\nend\n", t.isKeyword "classdef" = false) ∧
      functionEnd? [] (tokenize "if a\narguments\nend\nend\n") = some 8 ∧
      ¬ Cursor.EndsAt (Cursor.ofTokens (tokenize "if a\narguments\nend\nend\n")).skipBlock 8 := by
  refine ⟨by decide +kernel, by decide +kernel, fun ended => ?_⟩
  have missed : (Cursor.ofTokens (tokenize "if a\narguments\nend\nend\n")).skipBlock.1 = false := by decide +kernel
  exact absurd ended.1 (by simp [missed])

end MatlabOutline
