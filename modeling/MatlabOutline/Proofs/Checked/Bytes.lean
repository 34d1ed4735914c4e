import MatlabOutline.Text.Blank
import Mathlib.Data.List.Basic

/-!
Operations that can be out of range, with no result where they are: cuts of a text at a byte, which
must not lie inside a character, single bytes, parts of a sequence, and differences of counts.
-/

namespace MatlabOutline

namespace Checked

/-- The number of bytes of a text in UTF-8. -/
def size : List Char → Nat
  | [] => 0
  | c :: r => c.utf8Size + size r

/-- The bytes of a text in UTF-8. -/
def bytes (cs : List Char) : List UInt8 :=
  cs.flatMap String.utf8EncodeChar

/-- Cuts a text before the byte at `n`. -/
def cut : Nat → List Char → Option (List Char × List Char)
  | 0, cs => some ([], cs)
  | _ + 1, [] => none
  | n + 1, c :: r =>
    if c.utf8Size ≤ n + 1 then
      (cut (n + 1 - c.utf8Size) r).map fun (before, behind) => (c :: before, behind)
    else none

/-- The part of a text before the byte at `n`. -/
def upTo (n : Nat) (cs : List Char) : Option (List Char) :=
  (cut n cs).map Prod.fst

/-- The part of a text from the byte at `n`. -/
def onFrom (n : Nat) (cs : List Char) : Option (List Char) :=
  (cut n cs).map Prod.snd

/-- The byte at which `c` first begins. -/
def find (c : Char) (cs : List Char) : Option Nat :=
  if c ∈ cs then some (size (cs.takeWhile (· != c))) else none

/-- A difference of counts, which cannot be negative. -/
def minus (a b : Nat) : Option Nat :=
  if b ≤ a then some (a - b) else none

/-- The elements of a sequence from `first` up to `last`. -/
def slice {α : Type} (first last : Nat) (xs : List α) : Option (List α) :=
  if first ≤ last ∧ last ≤ xs.length then some ((xs.take last).drop first) else none

@[simp] theorem size_append (a b : List Char) : size (a ++ b) = size a + size b := by
  induction a with
  | nil => simp [size]
  | cons c a ih =>
    simp only [List.cons_append, size, ih]
    omega

@[simp] theorem length_bytes (cs : List Char) : (bytes cs).length = size cs := by
  induction cs with
  | nil => rfl
  | cons c cs ih => simpa [bytes, size] using ih

@[simp] theorem cut_append (a b : List Char) : cut (size a) (a ++ b) = some (a, b) := by
  induction a with
  | nil => simp [size, cut]
  | cons c a ih =>
    have first := c.utf8Size_pos
    obtain ⟨n, whole⟩ : ∃ n, size (c :: a) = n + 1 := ⟨c.utf8Size + size a - 1, by rw [size]; omega⟩
    have behind : n + 1 - c.utf8Size = size a := by rw [← whole, size]; omega
    have fits : c.utf8Size ≤ n + 1 := by rw [← whole, size]; omega
    rw [whole, List.cons_append, cut, if_pos fits, behind, ih]
    rfl

/-- A text is cut exactly between characters. -/
theorem cut_eq_some_iff {n : Nat} {cs a b : List Char} :
    cut n cs = some (a, b) ↔ cs = a ++ b ∧ n = size a := by
  refine ⟨fun found => ?_, fun ⟨whole, place⟩ => whole ▸ place ▸ cut_append a b⟩
  fun_induction cut n cs generalizing a with
  | case1 cs =>
    cases found
    exact ⟨rfl, rfl⟩
  | case2 => simp at found
  | case3 n c r fits ih =>
    obtain ⟨⟨before, behind⟩, inner, same⟩ := Option.map_eq_some_iff.mp found
    cases same
    obtain ⟨rfl, place⟩ := ih inner
    exact ⟨rfl, by rw [size]; omega⟩
  | case4 => simp at found

example : cut 1 ['é', '%'] = none ∧ cut 2 ['é', '%'] = some (['é'], ['%']) := by
  decide

@[simp] theorem upTo_append (a b : List Char) : upTo (size a) (a ++ b) = some a := by
  rw [upTo, cut_append]
  rfl

@[simp] theorem onFrom_append (a b : List Char) : onFrom (size a) (a ++ b) = some b := by
  rw [onFrom, cut_append]
  rfl

theorem minus_eq {a b c : Nat} (sum : a = c + b) : minus a b = some c := by
  rw [minus, if_pos (by omega)]
  congr
  omega

/-- What stands before a part at the end of a text. -/
@[simp] theorem minus_size_append (a b : List Char) : minus (size (a ++ b)) (size b) = some (size a) :=
  minus_eq (size_append a b)

theorem slice_append {α : Type} (a b c : List α) :
    slice a.length (a.length + b.length) (a ++ b ++ c) = some b := by
  have fits : a.length ≤ a.length + b.length ∧ a.length + b.length ≤ (a ++ b ++ c).length := by
    simp
  rw [slice, if_pos fits, ← List.length_append, List.take_left, List.drop_left]

/-- Only a carriage return has its byte at the end of its encoding. -/
theorem getLast?_encode_eq_iff (c : Char) :
    (String.utf8EncodeChar c).getLast? = some 13 ↔ c = '\r' := by
  refine ⟨fun last => ?_, fun carriage => carriage ▸ rfl⟩
  have small (n : Nat) (bound : n < 256) (byte : UInt8.ofNat n = 13) : n = 13 := by
    have value := congrArg UInt8.toNat byte
    rwa [UInt8.toNat_ofNat_of_lt' bound] at value
  unfold String.utf8EncodeChar at last
  simp only at last
  split at last
  · next ascii =>
    have value := small c.val.toNat (by omega) (by simpa using last)
    exact Char.ext (UInt32.toNat_inj.mp value)
  · -- Every later byte is at least 128.
    exfalso
    have further := small (c.val.toNat % 64 + 128) (by omega)
    split at last
    · have := further (by simpa using last)
      omega
    · split at last
      · have := further (by simpa using last)
        omega
      · have := further (by simpa using last)
        omega

/-- The byte before a place is that of a carriage return exactly if the character before it is one. -/
theorem exists_byte_before (front : List Char) (c : Char) (behind : List Char) :
    ∃ (n : Nat) (byte : UInt8), size (front ++ [c]) = n + 1 ∧
      (bytes (front ++ [c] ++ behind))[n]? = some byte ∧ (byte = 13 ↔ c = '\r') := by
  have first := c.utf8Size_pos
  have place : size (front ++ [c]) = (size front + (c.utf8Size - 1)) + 1 := by
    simp only [size_append, size]
    omega
  have encoded : bytes (front ++ [c] ++ behind) =
      bytes front ++ (String.utf8EncodeChar c ++ bytes behind) := by
    simp [bytes]
  have last : (bytes (front ++ [c] ++ behind))[size front + (c.utf8Size - 1)]? =
      (String.utf8EncodeChar c).getLast? := by
    rw [encoded, List.getElem?_append_right (by simp), length_bytes, Nat.add_sub_cancel_left,
      List.getElem?_append_left (by simp; omega), List.getLast?_eq_getElem?,
      String.length_utf8EncodeChar]
  rcases final : (String.utf8EncodeChar c).getLast? with _ | byte
  · have empty := congrArg List.length (List.getLast?_eq_none_iff.mp final)
    rw [String.length_utf8EncodeChar] at empty
    exact absurd empty (Nat.ne_of_gt first)
  · refine ⟨_, byte, place, last.trans final, ?_⟩
    rw [← getLast?_encode_eq_iff, final, Option.some.injEq]

end Checked

end MatlabOutline
