/-!
Prefix codes: the tree of a code, the canonical code with given lengths, and the reading of a
symbol.
-/

namespace MatlabOutline

abbrev Bits := List Bool

/-- The tree of a prefix code. A word of the code is the path from the root to a leaf. -/
inductive CodeTree
  | empty
  | leaf (symbol : Nat)
  | node (zero one : CodeTree)
deriving DecidableEq, Repr

namespace CodeTree

/-- The tree below one branch. A leaf has no branches. -/
def branch : CodeTree → Bool → CodeTree
  | node zero _, false => zero
  | node _ one, true => one
  | _, _ => empty

/-- Adds a word, or none if the word begins another or another begins it. -/
def add (symbol : Nat) : Bits → CodeTree → Option CodeTree
  | [], empty => some (leaf symbol)
  | [], _ => none
  | _ :: _, leaf _ => none
  | false :: r, t => (add symbol r (t.branch false)).map fun zero => node zero (t.branch true)
  | true :: r, t => (add symbol r (t.branch true)).map fun one => node (t.branch false) one

/-- Whether every sequence of bits begins with a word. -/
def complete : CodeTree → Bool
  | empty => false
  | leaf _ => true
  | node zero one => zero.complete && one.complete

/-- Follows bits to a leaf, and gives the bits behind. -/
def follow : CodeTree → Bits → Option (Nat × Bits)
  | leaf symbol, bits => some (symbol, bits)
  | node zero one, b :: r => if b then one.follow r else zero.follow r
  | _, _ => none

/-- Reads a symbol, which takes at least one bit. -/
def read (t : CodeTree) : Bits → Option (Nat × Bits)
  | [] => none
  | b :: r => (t.branch b).follow r

theorem length_follow {t : CodeTree} {bits rest : Bits} {symbol : Nat}
    (found : t.follow bits = some (symbol, rest)) : rest.length ≤ bits.length := by
  fun_induction follow t bits with
  | case1 => simp_all
  | case2 _ _ _ ih => have := ih found; simp only [List.length_cons]; omega
  | case3 _ _ _ _ _ ih => have := ih found; simp only [List.length_cons]; omega
  | case4 => simp at found

theorem length_read {t : CodeTree} {bits rest : Bits} {symbol : Nat}
    (found : t.read bits = some (symbol, rest)) : rest.length < bits.length := by
  cases bits with
  | nil => simp [read] at found
  | cons b r =>
    have := length_follow found
    simp only [List.length_cons]
    omega

end CodeTree

namespace PrefixCode

/-- The word of `length` bits with value `n`, its highest bit first. -/
def word (length n : Nat) : Bits :=
  ((List.range length).map fun i => n.testBit i).reverse

/-- The symbols that have words, each with the length of its word, the short words first and those
of one length in the order of their symbols. -/
def order (lengths : List Nat) : List (Nat × Nat) :=
  let used := lengths.zipIdx.filter fun (length, _) => length ≠ 0
  used.mergeSort fun a b => a.1 ≤ b.1

/-- Adds words in order. Each is the successor of the one before, `next`, at its own length. -/
def assign (last next : Nat) (t : CodeTree) : List (Nat × Nat) → Option CodeTree
  | [] => some t
  | (length, symbol) :: r =>
    let value := next * 2 ^ (length - last)
    match t.add symbol (word length value) with
    | some t => assign length (value + 1) t r
    | none => none

/-- The canonical code in which the symbol at each place has a word of the length there, if the
lengths fit each other. Some sequences of bits may begin with no word. -/
def ofLengths (lengths : List Nat) : Option CodeTree :=
  assign 0 0 .empty (order lengths)

/-- The canonical code with these lengths, if every sequence of bits begins with a word or there are
no words. -/
def full (lengths : List Nat) : Option CodeTree :=
  (ofLengths lengths).filter fun t => t.complete || t == .empty

/-- The canonical code with these lengths. A code that leaves a gap has one word, of one bit. -/
def canonical (lengths : List Nat) : Option CodeTree :=
  (ofLengths lengths).filter fun t => t.complete || lengths.all (· ≤ 1)

end PrefixCode

end MatlabOutline
