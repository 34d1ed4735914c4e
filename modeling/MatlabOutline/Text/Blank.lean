/-!
White space, and the ways of cutting it away. A character is blank when it has the Unicode
property `White_Space`; lines end at a line feed or at a carriage return before one.
-/

namespace MatlabOutline

/-- The Unicode property `White_Space`. -/
def isBlank (c : Char) : Bool :=
  let n := c.toNat
  (9 ≤ n && n ≤ 13) || n == 0x20 || n == 0x85 || n == 0xA0 || n == 0x1680 ||
    (0x2000 ≤ n && n ≤ 0x200A) || n == 0x2028 || n == 0x2029 || n == 0x202F || n == 0x205F ||
    n == 0x3000

namespace Text

/-- Removes the longest run of characters in `p` from the end. -/
def trimEndBy (p : Char → Bool) (cs : List Char) : List Char :=
  (cs.reverse.dropWhile p).reverse

def trimStart (cs : List Char) : List Char :=
  cs.dropWhile isBlank

def trimEnd (cs : List Char) : List Char :=
  trimEndBy isBlank cs

def trim (cs : List Char) : List Char :=
  trimEnd (trimStart cs)

/-- Every character is blank. -/
def allBlank (cs : List Char) : Bool :=
  cs.all isBlank

/-- Cuts a text after each line feed. Only the last piece can lack one, and it is not empty. -/
def pieces : List Char → List (List Char)
  | [] => []
  | '\n' :: r => ['\n'] :: pieces r
  | c :: r =>
    match pieces r with
    | [] => [[c]]
    | p :: ps => (c :: p) :: ps

/-- Removes a line feed at the end, together with a carriage return before it. -/
def chomp (cs : List Char) : List Char :=
  match cs.reverse with
  | '\n' :: '\r' :: r => r.reverse
  | '\n' :: r => r.reverse
  | _ => cs

/-- The lines of a text without their line ends. A carriage return that no line feed follows
stays in its line. -/
def lines (cs : List Char) : List (List Char) :=
  (pieces cs).map chomp

/-- Cuts a text at every `d`, which belongs to no part. There is always at least one part. -/
def splitAt (d : Char) : List Char → List (List Char)
  | [] => [[]]
  | c :: r =>
    if c = d then [] :: splitAt d r
    else match splitAt d r with
      | [] => [[c]]
      | p :: ps => (c :: p) :: ps

/-- Puts one `d` between neighbouring parts. -/
def joinWith (d : Char) (parts : List (List Char)) : List Char :=
  [d].intercalate parts

/-- The number of line feeds. -/
def feeds (cs : List Char) : Nat :=
  cs.count '\n'

theorem flatten_pieces (cs : List Char) : (pieces cs).flatten = cs := by
  fun_induction pieces cs with
  | case1 => rfl
  | case2 r ih => simp [ih]
  | case3 c r _ none ih => simpa [none] using ih
  | case4 c r _ p ps some ih => simpa [some] using ih

theorem splitAt_ne_nil (d : Char) (cs : List Char) : splitAt d cs ≠ [] := by
  cases cs with
  | nil => simp [splitAt]
  | cons c r =>
    unfold splitAt
    split
    · simp
    · split <;> simp

end Text

end MatlabOutline
