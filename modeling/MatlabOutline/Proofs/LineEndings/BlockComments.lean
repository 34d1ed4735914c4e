import MatlabOutline.Proofs.LineEndings.Scanners
import MatlabOutline.Proofs.Text.Parts
import MatlabOutline.Proofs.Text.Trimming

/-!
Block comments, which may run over line ends. A block comment that is closed is neutral; one that is not
closed takes all that follows, and so one more line end too.
-/

namespace MatlabOutline

namespace Scan

/-- The depth of nested block comments after lines of their text. -/
def depthOver (depth : Nat) (cs : List Char) : Nat :=
  (Text.splitAt '\n' cs).foldl depthAfter depth

theorem depthAfter_nil (depth : Nat) : depthAfter depth [] = depth := by
  simp [depthAfter, Text.trim, Text.trimStart, Text.trimEnd, Text.trimEndBy]

theorem depthOver_nil (depth : Nat) : depthOver depth [] = depth :=
  depthAfter_nil depth

theorem depthOver_line (depth : Nat) (cs : List Char) : depthOver depth ('\n' :: cs) = depthOver depth cs := by
  simp [depthOver, Text.splitAt, depthAfter_nil]

/-- The rest of a line, and the lines below it. -/
theorem depthOver_append {line below : List Char} (within : '\n' ∉ line)
    (ended : below = [] ∨ below.head? = some '\n') (depth : Nat) :
    depthOver depth (line ++ below) = depthOver (depthAfter depth line) below := by
  rcases below with _ | ⟨c, below⟩
  · rw [List.append_nil, depthOver_nil, depthOver, Text.splitAt_of_not_mem within]
    rfl
  · obtain rfl : c = '\n' := by simpa using ended
    rw [depthOver_line, depthOver, Text.splitAt_append within]
    rfl

theorem head_rest_lineBody {r : List Char} (plain : '\r' ∉ r) :
    (lineBody r).rest = [] ∨ (lineBody r).rest.head? = some '\n' := by
  induction r with
  | nil => exact .inl rfl
  | cons c r ih =>
    rw [List.mem_cons, not_or] at plain
    by_cases line : c = '\n'
    · rw [line]
      exact .inr rfl
    · rw [lineBody_cons, atLineEnd_of_other line (Ne.symm plain.1), if_neg (by simp)]
      exact ih plain.2

theorem head_taken_blockLines (depth : Nat) {r : List Char} (ended : r = [] ∨ r.head? = some '\n') :
    (blockLines depth r).taken = [] ∨ (blockLines depth r).taken.head? = some '\n' := by
  have whole := blockLines_whole depth r
  rcases taken : (blockLines depth r).taken with _ | ⟨c, cs⟩
  · exact .inl rfl
  · rw [Split.whole, taken] at whole
    rw [← whole] at ended
    exact .inr (by simpa using ended)

section Lines

variable {w : Rendition} {depth : Nat} {s : List Char}

theorem lineEnd_line (s : List Char) : lineEnd (w.text ('\n' :: s)) = ⟨w.ending.chars, w.text s⟩ := by
  rw [w.text_line]
  cases w.ending <;> rfl

/-- The line that closes a block comment, however it is written. -/
theorem blockLines_text_last (plain : '\r' ∉ s) (closed : depthAfter depth (lineBody s).taken = 0) :
    blockLines depth (w.text ('\n' :: s)) = ((lineBody s).rendered w).prepend w.ending.chars := by
  have line := neutral_lineBody w s plain
  have taken := taken_lineBody w s
  rw [blockLines_last] <;> rw [lineEnd_line]
  · rw [line]
  · cases w.ending <;> simp [LineEnding.chars]
  · rw [line, Split.rendered, taken, closed]

theorem blockLines_text_next (plain : '\r' ∉ s) (inner : depthAfter depth (lineBody s).taken ≠ 0) :
    blockLines depth (w.text ('\n' :: s)) =
      (blockLines (depthAfter depth (lineBody s).taken) (w.text (lineBody s).rest)).prepend
        (w.ending.chars ++ (lineBody s).taken) := by
  have line := neutral_lineBody w s plain
  have taken := taken_lineBody w s
  rw [blockLines_next] <;> rw [lineEnd_line]
  · rw [line, Split.rendered, taken]
  · cases w.ending <;> simp [LineEnding.chars]
  · rwa [line, Split.rendered, taken]

end Lines

variable {w : Rendition}

theorem blockLines_line (depth : Nat) {s : List Char} :
    blockLines depth ('\n' :: s) =
      if depthAfter depth (lineBody s).taken = 0 then (lineBody s).prepend ['\n']
      else (blockLines (depthAfter depth (lineBody s).taken) (lineBody s).rest).prepend
        ('\n' :: (lineBody s).taken) := by
  rw [blockLines.eq_def]
  rfl

/-- The lines of a block comment, as they are taken. -/
theorem depthOver_blockLines_line (depth : Nat) {s : List Char} (plain : '\r' ∉ s) :
    depthOver depth (blockLines depth ('\n' :: s)).taken =
      if depthAfter depth (lineBody s).taken = 0 then 0
      else depthOver (depthAfter depth (lineBody s).taken)
        (blockLines (depthAfter depth (lineBody s).taken) (lineBody s).rest).taken := by
  have within := feed_not_mem_lineBody s
  have first (below : List Char) (ended : below = [] ∨ below.head? = some '\n') :
      depthOver depth ('\n' :: ((lineBody s).taken ++ below)) =
        depthOver (depthAfter depth (lineBody s).taken) below := by
    rw [depthOver_line, depthOver_append within ended]
  rw [blockLines_line]
  split
  · next closed =>
    have last := first [] (.inl rfl)
    rw [List.append_nil, closed] at last
    exact last
  · exact first _ (head_taken_blockLines _ (head_rest_lineBody plain))

/-- A block comment that is closed is taken alike however it is written. -/
theorem neutralAt_blockLines {depth : Nat} (inside : depth ≠ 0) {r : List Char} (plain : '\r' ∉ r)
    (ended : r = [] ∨ r.head? = some '\n') (closed : depthOver depth (blockLines depth r).taken = 0) :
    NeutralAt w (blockLines depth) r := by
  induction length : r.length using Nat.strongRecOn generalizing r depth with
  | ind n ih =>
  rcases r with _ | ⟨c, s⟩
  · rw [blockLines_stop rfl, depthOver_nil] at closed
    exact absurd closed inside
  obtain rfl : c = '\n' := by simpa using ended
  rw [List.mem_cons, not_or] at plain
  rw [depthOver_blockLines_line depth plain.2] at closed
  rw [NeutralAt, blockLines_line]
  split
  · next last =>
    rw [blockLines_text_last plain.2 last]
    simp [Split.rendered, Split.prepend]
  · next inner =>
    rw [if_neg inner] at closed
    have rest := Split.not_mem_rest (lineBody_whole s) plain.2
    have shorter : (lineBody s).rest.length < n := by
      have bound := Split.length_rest_le (lineBody_whole s)
      rw [← length, List.length_cons]
      omega
    have further := ih _ shorter inner rest (head_rest_lineBody plain.2) closed rfl
    rw [blockLines_text_next plain.2 inner, further]
    simp [Split.rendered, Split.prepend, taken_lineBody]

theorem blockLines_tail {depth : Nat} (inside : depth ≠ 0) : blockLines depth w.tail = ⟨w.tail, []⟩ := by
  rcases closed : w.closed with _ | _
  · rw [Rendition.tail, closed]
    exact blockLines_stop rfl
  · -- One more line end is a line of its own, which closes nothing.
    have single : w.tail = ({ w with closed := false } : Rendition).text ['\n'] := by
      simp [Rendition.tail, closed]
    have empty : depthAfter depth (lineBody []).taken = depth := depthAfter_nil depth
    rw [single, blockLines_text_next (by simp) (by rwa [empty]), empty, blockLines_stop]
    · simp [Split.prepend, lineBody, Rendition.tail]
    · rfl

/-- A block comment that is not closed takes everything. -/
theorem blockLines_text_of_open {depth : Nat} (inside : depth ≠ 0) {r : List Char} (plain : '\r' ∉ r)
    (ended : r = [] ∨ r.head? = some '\n') (unclosed : depthOver depth (blockLines depth r).taken ≠ 0) :
    blockLines depth (w.text r) = ⟨w.text r, []⟩ := by
  induction length : r.length using Nat.strongRecOn generalizing r depth with
  | ind n ih =>
  rcases r with _ | ⟨c, s⟩
  · rw [w.text_nil]
    exact blockLines_tail inside
  obtain rfl : c = '\n' := by simpa using ended
  rw [List.mem_cons, not_or] at plain
  rw [depthOver_blockLines_line depth plain.2] at unclosed
  have inner : depthAfter depth (lineBody s).taken ≠ 0 := by
    intro last
    simp [last] at unclosed
  rw [if_neg inner] at unclosed
  have rest := Split.not_mem_rest (lineBody_whole s) plain.2
  have shorter : (lineBody s).rest.length < n := by
    have bound := Split.length_rest_le (lineBody_whole s)
    rw [← length, List.length_cons]
    omega
  have further := ih _ shorter inner rest (head_rest_lineBody plain.2) unclosed rfl
  have whole : w.text s = (lineBody s).taken ++ w.text (lineBody s).rest := by
    conv => lhs; rw [← lineBody_whole s, Split.whole, w.text_append, taken_lineBody]
  rw [blockLines_text_next plain.2 inner, further, w.text_line, whole]
  simp [Split.prepend]

theorem neutralAt_blockRest {r : List Char} (plain : '\r' ∉ r)
    (closed : depthOver 1 (blockLines 1 (lineBody r).rest).taken = 0) : NeutralAt w blockRest r := by
  have rest := Split.not_mem_rest (lineBody_whole r) plain
  have further := neutralAt_blockLines (w := w) Nat.one_ne_zero rest (head_rest_lineBody plain) closed
  exact (neutral_lineBody w r plain).andThen further

theorem blockRest_text_of_open {r : List Char} (plain : '\r' ∉ r)
    (unclosed : depthOver 1 (blockLines 1 (lineBody r).rest).taken ≠ 0) :
    blockRest (w.text r) = ⟨w.text r, []⟩ := by
  have rest := Split.not_mem_rest (lineBody_whole r) plain
  have further := blockLines_text_of_open (w := w) Nat.one_ne_zero rest (head_rest_lineBody plain) unclosed
  have whole : w.text r = w.ending.write (lineBody r).taken ++ w.text (lineBody r).rest := by
    conv => lhs; rw [← lineBody_whole r, Split.whole, w.text_append]
  rw [blockRest, neutral_lineBody w r plain, Split.rendered, Split.andThen, further, whole]
  rfl

end Scan

end MatlabOutline
