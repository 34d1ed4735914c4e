import MatlabOutline.Proofs.Checked.Lexing

/-!
A block comment covers the fewest whole lines of its text that close as many blocks as they open, or
all of the text if no lines do (`Scan.isBlock_blockRest`).
-/

namespace MatlabOutline

namespace Text

def opensBlock (line : List Char) : Bool :=
  trim line == ['%', '\x7b']

def closesBlock (line : List Char) : Bool :=
  trim line == ['%', '\x7d']

/-- The lines close all blocks that they open, and `depth` blocks more. -/
def Closes (depth : Nat) (ls : List (List Char)) : Prop :=
  depth + ls.countP opensBlock = ls.countP closesBlock

/-- The text up to the end of a block comment, where `cs` follows the openers of `depth` blocks. The
last line end is not part of it. -/
inductive IsBlock (depth : Nat) (cs : List Char) : List Char → Prop
  | closed (n : Nat) (filled : 0 < n) (within : n ≤ (lines cs).length)
      (closes : Closes depth ((lines cs).take n))
      (first : ∀ m, 0 < m → m < n → ¬ Closes depth ((lines cs).take m)) :
      IsBlock depth cs (chomp ((pieces cs).take n).flatten)
  | unclosed (none : ∀ m, 0 < m → m ≤ (lines cs).length → ¬ Closes depth ((lines cs).take m)) :
      IsBlock depth cs cs

theorem filled_of_mem_pieces {cs : List Char} : ∀ piece ∈ pieces cs, piece ≠ [] := by
  fun_induction pieces cs with
  | case1 => simp
  | case2 r ih => exact List.forall_mem_cons.mpr ⟨by simp, ih⟩
  | case3 c r _ none _ => simp
  | case4 c r _ p ps some ih =>
    rw [some, List.forall_mem_cons] at ih
    exact List.forall_mem_cons.mpr ⟨by simp, ih.2⟩

/-- Only the last line end is removed. -/
theorem chomp_append {a x : List Char} (ended : a.getLast? ≠ some '\r') (filled : x ≠ []) :
    chomp (a ++ x) = a ++ chomp x := by
  obtain ⟨front, c, rfl⟩ := (List.eq_nil_or_concat x).resolve_left filled
  rw [List.concat_eq_append]
  by_cases feed : c = '\n'
  · subst feed
    by_cases carriage : front.getLast? = some '\r'
    · obtain ⟨line, rfl⟩ := List.getLast?_eq_some_iff.mp carriage
      have cut (line : List Char) : chomp (line ++ ['\r'] ++ ['\n']) = line := by
        simpa [LineEnding.chars] using @chomp_line line .carriage (by simp)
      rw [cut, ← List.append_assoc, ← List.append_assoc, cut]
    · have longer : (a ++ front).getLast? ≠ some '\r' := by
        rw [List.getLast?_append]
        cases last : front.getLast? with
        | none => simpa using ended
        | some d => simpa [last] using carriage
      rw [← List.append_assoc]
      have long : chomp (a ++ front ++ ['\n']) = a ++ front := @chomp_line _ .feed fun _ => longer
      have short : chomp (front ++ ['\n']) = front := @chomp_line _ .feed fun _ => carriage
      rw [long, short]
  · simp [chomp, feed]

theorem closes_cons {depth inner : Nat} {line : List Char}
    (next : Checked.nestAfter depth line = some inner) (ls : List (List Char)) :
    Closes depth (line :: ls) ↔ Closes inner ls := by
  unfold Checked.nestAfter at next
  split at next
  · next opens =>
    obtain rfl := Option.some.inj next
    simp [Closes, opensBlock, closesBlock, opens]
    omega
  · next other =>
    split at next
    · next closes =>
      obtain ⟨inside, rfl⟩ : 1 ≤ depth ∧ depth - 1 = inner := by simpa [Checked.minus] using next
      simp [Closes, opensBlock, closesBlock, closes]
      omega
    · next plain =>
      obtain rfl := Option.some.inj next
      simp [Closes, opensBlock, closesBlock, other, plain]

theorem closes_nil {depth : Nat} : Closes depth [] ↔ depth = 0 := by
  simp [Closes]

theorem not_closes_cons {depth inner n : Nat} {line : List Char} {ls : List (List Char)}
    (next : Checked.nestAfter depth line = some inner) (going : inner ≠ 0)
    (none : ∀ m, 0 < m → m < n → ¬ Closes inner (ls.take m)) :
    ∀ m, 0 < m → m < n + 1 → ¬ Closes depth ((line :: ls).take m) := by
  rintro (_ | m) positive less
  · exact absurd positive (Nat.lt_irrefl 0)
  · rw [List.take_succ_cons, closes_cons next]
    rcases Nat.eq_zero_or_pos m with rfl | further
    · rwa [List.take_zero, closes_nil]
    · exact none m further (by omega)

theorem lines_below {line : List Char} {ending : LineEnding} (within : '\n' ∉ line)
    (ended : ending = .feed → line.getLast? ≠ some '\r') (below : List Char) :
    lines (line ++ ending.chars ++ below) = line :: lines below := by
  rw [lines, pieces_line ending within, List.map_cons, chomp_line ended]
  rfl

theorem isBlock_single {depth : Nat} {cs : List Char} (filled : cs ≠ []) (within : '\n' ∉ cs) :
    IsBlock depth cs cs := by
  have whole := pieces_of_not_mem filled within
  have each : lines cs = [cs] := by rw [lines, whole, List.map_singleton, chomp_of_not_mem within]
  by_cases closes : Closes depth [cs]
  · have text : cs = chomp ((pieces cs).take 1).flatten := by simp [whole, chomp_of_not_mem within]
    conv => rhs; rw [text]
    apply IsBlock.closed 1 Nat.one_pos
    · simp [each]
    · rwa [each]
    · omega
  · apply IsBlock.unclosed
    intro m positive bound
    obtain rfl : m = 1 := by
      rw [each, List.length_singleton] at bound
      omega
    rwa [each]

/-- A line that closes the last block ends the comment. -/
theorem isBlock_line {depth : Nat} {line : List Char} {ending : LineEnding} (within : '\n' ∉ line)
    (ended : ending = .feed → line.getLast? ≠ some '\r') (closes : Closes depth [line])
    (below : List Char) : IsBlock depth (line ++ ending.chars ++ below) line := by
  have each := lines_below within ended below
  have text : line = chomp ((pieces (line ++ ending.chars ++ below)).take 1).flatten := by
    rw [pieces_line ending within, List.take_succ_cons, List.take_zero, List.flatten_singleton,
      chomp_line ended]
  conv => rhs; rw [text]
  apply IsBlock.closed 1 Nat.one_pos
  · rw [each, List.length_cons]
    omega
  · rwa [each]
  · omega

/-- Behind a line that leaves blocks open the comment goes on. -/
theorem IsBlock.line {depth inner : Nat} {line below p : List Char} {ending : LineEnding}
    (within : '\n' ∉ line) (ended : ending = .feed → line.getLast? ≠ some '\r')
    (next : Checked.nestAfter depth line = some inner) (going : inner ≠ 0)
    (block : IsBlock inner below p) :
    IsBlock depth (line ++ ending.chars ++ below) (line ++ ending.chars ++ p) := by
  have cut := pieces_line ending within below
  have each := lines_below within ended below
  cases block with
  | closed n filled bound closes first =>
    have taken : ((pieces below).take n).flatten ≠ [] := by
      rcases parts : pieces below with _ | ⟨piece, more⟩
      · simp only [lines, parts, List.map_nil, List.length_nil] at bound
        omega
      · obtain ⟨n, rfl⟩ := Nat.exists_eq_add_one_of_ne_zero (Nat.ne_of_gt filled)
        have solid := filled_of_mem_pieces piece (parts ▸ List.mem_cons_self)
        simp [solid]
    have last : (line ++ ending.chars).getLast? ≠ some '\r' := by
      cases ending <;> simp [LineEnding.chars]
    have text : line ++ ending.chars ++ chomp ((pieces below).take n).flatten =
        chomp ((pieces (line ++ ending.chars ++ below)).take (n + 1)).flatten := by
      rw [cut, List.take_succ_cons, List.flatten_cons, chomp_append last taken]
    rw [text]
    apply IsBlock.closed (n + 1) (by omega)
    · rw [each, List.length_cons]
      omega
    · rw [each, List.take_succ_cons, closes_cons next]
      exact closes
    · rw [each]
      exact not_closes_cons next going first
  | unclosed none =>
    apply IsBlock.unclosed
    rw [each, List.length_cons]
    intro m positive bound
    exact not_closes_cons next going (fun m positive less => none m positive (by omega)) m positive
      (Nat.lt_succ_of_le bound)

end Text

namespace Scan

/-- The text up to the end of a block comment, of which `cs` begins with a line that leaves `inner` blocks
open. -/
def uptoEnd (inner : Nat) (cs : List Char) : List Char :=
  (lineBody cs).taken ++ if inner = 0 then [] else (blockLines inner (lineBody cs).rest).taken

theorem taken_blockLines (depth : Nat) (ending : LineEnding) (below : List Char) :
    (blockLines depth (ending.chars ++ below)).taken =
      ending.chars ++ uptoEnd (depthAfter depth (lineBody below).taken) below := by
  have ended : (lineEnd (ending.chars ++ below)).taken ≠ [] := by
    rw [lineEnd_chars]
    cases ending <;> simp [LineEnding.chars]
  unfold uptoEnd
  split
  · next closed =>
    rw [blockLines_last ended (by rwa [lineEnd_chars]), lineEnd_chars, List.append_nil]
    rfl
  · next going =>
    rw [blockLines_next ended (by rwa [lineEnd_chars]), lineEnd_chars]
    simp [Split.prepend]

theorem uptoEnd_single {inner : Nat} {cs : List Char} (body : lineBody cs = ⟨cs, []⟩) :
    uptoEnd inner cs = cs := by
  rw [uptoEnd, body, blockLines_stop rfl, ite_self, List.append_nil]

theorem isBlock_uptoEnd {depth inner : Nat} {cs : List Char} (filled : cs ≠ [])
    (next : Checked.nestAfter depth (lineBody cs).taken = some inner) :
    Text.IsBlock depth cs (uptoEnd inner cs) := by
  induction whole : cs.length using Nat.strong_induction_on generalizing depth inner cs with
  | _ n ih =>
  rcases lineBody_cases cs with ⟨single, body⟩ | ⟨line, ending, below, within, ended, rfl, body⟩
  · rw [uptoEnd_single body]
    exact Text.isBlock_single filled single
  · rw [body] at next
    by_cases closed : inner = 0
    · have text : uptoEnd inner (line ++ ending.chars ++ below) = line := by
        rw [uptoEnd, if_pos closed, body, List.append_nil]
      rw [text]
      apply Text.isBlock_line within ended
      rw [Text.closes_cons next, Text.closes_nil, closed]
    · have text : uptoEnd inner (line ++ ending.chars ++ below) =
          line ++ ending.chars ++ uptoEnd (depthAfter inner (lineBody below).taken) below := by
        rw [uptoEnd, if_neg closed, body, taken_blockLines, List.append_assoc]
      rw [text]
      apply Text.IsBlock.line within ended next closed
      by_cases last : below = []
      · have nothing : uptoEnd (depthAfter inner (lineBody below).taken) below = below := by
          rw [last, uptoEnd, lineBody, blockLines_stop rfl, ite_self, List.append_nil]
        rw [nothing]
        apply Text.IsBlock.unclosed
        intro m positive bound
        simp only [last, Text.lines, Text.pieces, List.map_nil, List.length_nil] at bound
        omega
      · apply ih _ _ last (Checked.nestAfter_eq closed _) rfl
        have positive : 0 < ending.chars.length := by cases ending <;> simp [LineEnding.chars]
        simp only [List.length_append] at whole
        omega

theorem uptoEnd_opener (r : List Char) : uptoEnd 1 ('%' :: r) = '%' :: (blockRest r).taken := by
  rw [uptoEnd, if_neg Nat.one_ne_zero, lineBody_cons, if_neg (by simp [atLineEnd])]
  rfl

/-- A block comment ends where it is closed, or runs to the end. -/
theorem isBlock_blockRest {r : List Char} (opens : opensBlockComment r = true) :
    Text.IsBlock 0 ('%' :: r) ('%' :: (blockRest r).taken) := by
  rw [← uptoEnd_opener]
  exact isBlock_uptoEnd (by simp) (Checked.nestAfter_opener opens)

/-- A block comment begins with the whole first line. -/
theorem head_lines_uptoEnd {inner : Nat} (going : inner ≠ 0) {cs : List Char} (filled : cs ≠ []) :
    (Text.lines (uptoEnd inner cs)).head? = some (lineBody cs).taken := by
  rcases lineBody_cases cs with ⟨single, body⟩ | ⟨line, ending, below, within, ended, rfl, body⟩
  · rw [uptoEnd_single body, body, Text.lines, Text.pieces_of_not_mem filled single, List.map_singleton,
      Text.chomp_of_not_mem single]
    rfl
  · rw [uptoEnd, if_neg going, body, taken_blockLines, ← List.append_assoc,
      Text.lines_below within ended]
    rfl

end Scan

end MatlabOutline
