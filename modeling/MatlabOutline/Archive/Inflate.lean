import MatlabOutline.Archive.Code
import MatlabOutline.Text.Utf8

/-!
Inflating: the bytes that a deflated stream stands for. The stream is a sequence of blocks, each
stored as it is or written in words of two prefix codes.
-/

namespace MatlabOutline

namespace Inflate

/-- The bits of a byte, the lowest first. -/
def bitsOfByte (b : UInt8) : Bits :=
  (List.range 8).map fun i => b.toNat.testBit i

def bitsOf (bytes : Bytes) : Bits :=
  bytes.flatMap bitsOfByte

/-- The number that bits write, the lowest first. -/
def valueOf : Bits → Nat
  | [] => 0
  | b :: r => b.toNat + 2 * valueOf r

/-- Reads a number of `width` bits. -/
def number (width : Nat) (bits : Bits) : Option (Nat × Bits) :=
  if bits.length < width then none else some (valueOf (bits.take width), bits.drop width)

/-- The two codes of a block: for bytes and lengths, and for distances. -/
structure Codes where
  literal : CodeTree
  distance : CodeTree
deriving DecidableEq, Repr

/-- For each symbol after the end of the block, the least length and how many more bits it has. -/
def lengthTable : List (Nat × Nat) :=
  [(3, 0), (4, 0), (5, 0), (6, 0), (7, 0), (8, 0), (9, 0), (10, 0), (11, 1), (13, 1), (15, 1),
    (17, 1), (19, 2), (23, 2), (27, 2), (31, 2), (35, 3), (43, 3), (51, 3), (59, 3), (67, 4),
    (83, 4), (99, 4), (115, 4), (131, 5), (163, 5), (195, 5), (227, 5), (258, 0)]

/-- For each symbol of a distance, the least distance and how many more bits it has. -/
def distanceTable : List (Nat × Nat) :=
  [(1, 0), (2, 0), (3, 0), (4, 0), (5, 1), (7, 1), (9, 2), (13, 2), (17, 3), (25, 3), (33, 4),
    (49, 4), (65, 5), (97, 5), (129, 6), (193, 6), (257, 7), (385, 7), (513, 8), (769, 8),
    (1025, 9), (1537, 9), (2049, 10), (3073, 10), (4097, 11), (6145, 11), (8193, 12), (12289, 12),
    (16385, 13), (24577, 13)]

/-- A value from a table: its base and the bits that follow. -/
def tabled (table : List (Nat × Nat)) (index : Nat) (bits : Bits) : Option (Nat × Bits) :=
  match table[index]? with
  | some (base, width) => (number width bits).map fun (n, r) => (base + n, r)
  | none => none

/-- Repeats `count` bytes from `distance` bytes back. The bytes may overlap those they make. -/
def repeatBack (distance : Nat) (out : Array UInt8) : Nat → Array UInt8
  | 0 => out
  | count + 1 => repeatBack distance (out.push (out.getD (out.size - distance) 0)) count

/-- The symbol that ends a block. -/
def endSymbol : Nat :=
  256

/-- What a symbol past the end of the block does: the distance of the repetition follows its
length. -/
def repetition (codes : Codes) (symbol : Nat) (out : Array UInt8) (bits : Bits) :
    Option (Array UInt8 × Bits) := do
  let (count, bits) ← tabled lengthTable (symbol - (endSymbol + 1)) bits
  let (index, bits) ← codes.distance.read bits
  let (distance, bits) ← tabled distanceTable index bits
  if out.size < distance then none else some (repeatBack distance out count, bits)

theorem length_number {width n : Nat} {bits rest : Bits} (h : number width bits = some (n, rest)) :
    rest.length ≤ bits.length := by
  simp only [number] at h
  split at h
  · simp at h
  · simp only [Option.some.injEq, Prod.mk.injEq] at h
    rw [← h.2]
    simp

theorem length_tabled {table : List (Nat × Nat)} {index n : Nat} {bits rest : Bits}
    (h : tabled table index bits = some (n, rest)) : rest.length ≤ bits.length := by
  simp only [tabled] at h
  split at h
  · simp only [Option.map_eq_some_iff, Prod.exists, Prod.mk.injEq] at h
    obtain ⟨m, r, found, _, rfl⟩ := h
    exact length_number found
  · simp at h

theorem length_repetition {codes : Codes} {symbol : Nat} {out made : Array UInt8}
    {bits rest : Bits} (h : repetition codes symbol out bits = some (made, rest)) :
    rest.length ≤ bits.length := by
  simp only [repetition, Option.bind_eq_bind, Option.bind_eq_some_iff, Prod.exists] at h
  obtain ⟨count, afterLength, h₁, index, afterIndex, h₂, distance, afterDistance, h₃, h₄⟩ := h
  split at h₄
  · simp at h₄
  · simp only [Option.some.injEq, Prod.mk.injEq] at h₄
    have := length_tabled h₁
    have := CodeTree.length_read h₂
    have := length_tabled h₃
    rw [← h₄.2]
    omega

/-- What one symbol does to the bytes, and whether it ends the block. -/
def step (codes : Codes) (out : Array UInt8) (bits : Bits) :
    Option ((Array UInt8 × Bool) × Bits) :=
  match codes.literal.read bits with
  | none => none
  | some (symbol, r) =>
    if symbol < endSymbol then some ((out.push symbol.toUInt8, false), r)
    else if symbol = endSymbol then some ((out, true), r)
    else (repetition codes symbol out r).map fun made => ((made.1, false), made.2)

theorem length_step {codes : Codes} {out made : Array UInt8} {ended : Bool} {bits rest : Bits}
    (h : step codes out bits = some ((made, ended), rest)) : rest.length < bits.length := by
  simp only [step] at h
  split at h
  · simp at h
  · rename_i symbol r found
    have shorter := CodeTree.length_read found
    split at h
    · simp only [Option.some.injEq, Prod.mk.injEq] at h
      rw [← h.2]
      exact shorter
    · split at h
      · simp only [Option.some.injEq, Prod.mk.injEq] at h
        rw [← h.2]
        exact shorter
      · simp only [Option.map_eq_some_iff, Prod.exists, Prod.mk.injEq] at h
        obtain ⟨more, after, repeated, _, rfl⟩ := h
        exact Nat.lt_of_le_of_lt (length_repetition repeated) shorter

/-- Reads the symbols of a block to its end. -/
def symbols (codes : Codes) (out : Array UInt8) (bits : Bits) : Option (Array UInt8 × Bits) :=
  match _ : step codes out bits with
  | none => none
  | some ((made, true), r) => some (made, r)
  | some ((made, false), r) => symbols codes made r
termination_by bits.length
decreasing_by
  rename_i found
  exact length_step found

/-- The codes of a block that brings none. -/
def fixedCodes : Option Codes := do
  let literal ← PrefixCode.canonical (List.replicate 144 8 ++ List.replicate 112 9 ++
    List.replicate 24 7 ++ List.replicate 8 8)
  let distance ← PrefixCode.canonical (List.replicate 32 5)
  return { literal, distance }

/-- The order in which a block lists the lengths of the code for lengths. -/
def lengthOrder : List Nat :=
  [16, 17, 18, 0, 8, 7, 9, 6, 10, 5, 11, 4, 12, 3, 13, 2, 14, 1, 15]

/-- Reads `count` numbers of three bits. -/
def triples : Nat → Bits → Option (List Nat × Bits)
  | 0, bits => some ([], bits)
  | count + 1, bits => do
    let (n, bits) ← number 3 bits
    let (r, bits) ← triples count bits
    return (n :: r, bits)

/-- The lengths that one symbol adds after those in `made`. The symbols past 15 repeat the last
length or zero. -/
def lengthRun (made : List Nat) (symbol : Nat) (bits : Bits) : Option (List Nat × Bits) :=
  if symbol < 16 then some ([symbol], bits)
  else if symbol = 16 then
    match made.getLast? with
    | some last => (number 2 bits).map fun (n, r) => (List.replicate (3 + n) last, r)
    | none => none
  else if symbol = 17 then (number 3 bits).map fun (n, r) => (List.replicate (3 + n) 0, r)
  else (number 7 bits).map fun (n, r) => (List.replicate (11 + n) 0, r)

theorem length_lengthRun {made run : List Nat} {symbol : Nat} {bits rest : Bits}
    (h : lengthRun made symbol bits = some (run, rest)) : rest.length ≤ bits.length := by
  simp only [lengthRun] at h
  split at h
  · simp only [Option.some.injEq, Prod.mk.injEq] at h
    exact Nat.le_of_eq (congrArg List.length h.2.symm)
  · have read (width : Nat) (f : Nat → List Nat)
        (h : (number width bits).map (fun read => (f read.1, read.2)) = some (run, rest)) :
        rest.length ≤ bits.length := by
      simp only [Option.map_eq_some_iff, Prod.exists, Prod.mk.injEq] at h
      obtain ⟨n, r, found, _, rfl⟩ := h
      exact length_number found
    split at h
    · split at h
      · rename_i last _
        exact read 2 (fun n => List.replicate (3 + n) last) h
      · simp at h
    · split at h
      · exact read 3 (fun n => List.replicate (3 + n) 0) h
      · exact read 7 (fun n => List.replicate (11 + n) 0) h

/-- Reads the lengths of words, after those in `made`, until there are `count`. -/
def lengths (t : CodeTree) (count : Nat) (made : List Nat) (bits : Bits) :
    Option (List Nat × Bits) :=
  if made.length = count then some (made, bits)
  else if count < made.length then none
  else match _ : t.read bits with
    | none => none
    | some (symbol, r) =>
      match _ : lengthRun made symbol r with
      | some (run, r') => lengths t count (made ++ run) r'
      | none => none
termination_by bits.length
decreasing_by
  rename_i found added
  exact Nat.lt_of_le_of_lt (length_lengthRun added) (CodeTree.length_read found)

/-- The numbers of symbols that the codes of a block may have. -/
def countsFit (literals distances : Nat) : Bool :=
  literals ≤ 286 && distances ≤ 30

/-- The codes with the lengths of their words given, the first `count` for the literals. A block
must be able to end. -/
def codesOf (count : Nat) (widths : List Nat) : Option Codes := do
  if widths.getD endSymbol 0 = 0 then none
  let literal ← PrefixCode.canonical (widths.take count)
  let distance ← PrefixCode.canonical (widths.drop count)
  return { literal, distance }

/-- Reads the codes that a block brings. -/
def ownCodes (bits : Bits) : Option (Codes × Bits) := do
  let (literals, bits) ← number 5 bits
  let (distances, bits) ← number 5 bits
  let (count, bits) ← number 4 bits
  if !countsFit (literals + 257) (distances + 1) then none
  let (widths, bits) ← triples (count + 4) bits
  let placed := (List.range 19).map fun symbol => ((lengthOrder.zip widths).lookup symbol).getD 0
  let t ← PrefixCode.full placed
  let (all, bits) ← lengths t (literals + 257 + (distances + 1)) [] bits
  return (← codesOf (literals + 257) all, bits)

/-- Reads `count` whole bytes. -/
def wholeBytes (out : Array UInt8) : Nat → Bits → Option (Array UInt8 × Bits)
  | 0, bits => some (out, bits)
  | count + 1, bits =>
    match number 8 bits with
    | some (n, r) => wholeBytes (out.push n.toUInt8) count r
    | none => none

/-- A stored block begins at a whole byte with its length and the complement of its length. -/
def stored (out : Array UInt8) (bits : Bits) : Option (Array UInt8 × Bits) := do
  let (size, bits) ← number 16 (bits.drop (bits.length % 8))
  let (check, bits) ← number 16 bits
  if size + check = 0xFFFF then wholeBytes out size bits else none

/-- Reads the rest of a block of the given kind. -/
def block (low high : Bool) (out : Array UInt8) (bits : Bits) : Option (Array UInt8 × Bits) := do
  match high, low with
  | false, false => stored out bits
  | false, true => symbols (← fixedCodes) out bits
  | true, false =>
    let (codes, bits) ← ownCodes bits
    symbols codes out bits
  | true, true => none

/-- Reads at most `fuel` blocks, to the last one. -/
def blocks (fuel : Nat) (out : Array UInt8) (bits : Bits) : Option (Array UInt8) :=
  match fuel, bits with
  | n + 1, last :: low :: high :: r =>
    match block low high out r with
    | some (out, r) => if last then some out else blocks n out r
    | none => none
  | _, _ => none

/-- The bytes that a deflated stream stands for. What follows its last block is ignored. A block has
at least three bits, so the number of bits bounds that of the blocks. -/
def inflate (bytes : Bytes) : Option Bytes :=
  let bits := bitsOf bytes
  (blocks bits.length #[] bits).map Array.toList

end Inflate

end MatlabOutline
