/-!
Reading UTF-8. Each maximal part of bytes that no character begins with is one malformed unit.
-/

namespace MatlabOutline

abbrev Bytes := List UInt8

namespace Utf8

/-- The further bytes of a character: `count` of them, the first between `low` and `high`. -/
def trail (count low high : Nat) (value : Nat) (bytes : Bytes) : Option Char × Bytes :=
  match count, bytes with
  | 0, r => (some (Char.ofNat value), r)
  | _ + 1, [] => (none, [])
  | n + 1, b :: r =>
    if low ≤ b.toNat ∧ b.toNat ≤ high then
      trail n 0x80 0xBF (64 * value + (b.toNat - 0x80)) r
    else (none, b :: r)

/-- The character that begins with byte `b`, or none if it is malformed, and the bytes behind. -/
def step (b : UInt8) (r : Bytes) : Option Char × Bytes :=
  let n := b.toNat
  if n < 0x80 then (some (Char.ofNat n), r)
  else if n < 0xC2 then (none, r)
  else if n < 0xE0 then trail 1 0x80 0xBF (n - 0xC0) r
  else if n = 0xE0 then trail 2 0xA0 0xBF 0 r
  else if n = 0xED then trail 2 0x80 0x9F 0xD r
  else if n < 0xF0 then trail 2 0x80 0xBF (n - 0xE0) r
  else if n = 0xF0 then trail 3 0x90 0xBF 0 r
  else if n < 0xF4 then trail 3 0x80 0xBF (n - 0xF0) r
  else if n = 0xF4 then trail 3 0x80 0x8F 4 r
  else (none, r)

theorem length_trail (count low high value : Nat) (bytes : Bytes) :
    (trail count low high value bytes).2.length ≤ bytes.length := by
  fun_induction trail count low high value bytes <;> simp_all
  omega

theorem length_step (b : UInt8) (r : Bytes) : (step b r).2.length ≤ r.length := by
  fun_cases step b r <;> simp [length_trail]

/-- The characters of a text, with none for each malformed unit. -/
def decode (bytes : Bytes) : List (Option Char) :=
  match bytes with
  | [] => []
  | b :: r => (step b r).1 :: decode (step b r).2
termination_by bytes.length
decreasing_by
  have := length_step b r
  simp only [List.length_cons]
  omega

/-- The text, if nothing in it is malformed. -/
def decode? (bytes : Bytes) : Option String :=
  ((decode bytes).mapM id).map String.ofList

end Utf8

end MatlabOutline
