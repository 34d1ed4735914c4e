import Mathlib.Data.List.DropRight
import MatlabOutline.Text.Blank

/-!
What trimming takes away and what it leaves.
-/

namespace MatlabOutline

namespace Text

theorem trimEndBy_append {p : Char → Bool} {w : List Char} (all : ∀ c ∈ w, p c = true) (cs : List Char) :
    trimEndBy p (cs ++ w) = trimEndBy p cs := by
  rw [trimEndBy, List.reverse_append, List.dropWhile_append_of_pos (by simpa using all), trimEndBy]

theorem trimEndBy_concat {p : Char → Bool} {c : Char} (other : p c = false) (cs : List Char) :
    trimEndBy p (cs ++ [c]) = cs ++ [c] := by
  simp [trimEndBy, other]

theorem trimEndBy_initial (p : Char → Bool) (cs : List Char) : trimEndBy p cs <+: cs := by
  rw [trimEndBy, ← List.reverse_suffix, List.reverse_reverse]
  exact List.dropWhile_suffix p

theorem trimEndBy_cons {p : Char → Bool} {c : Char} (solid : p c = false) (cs : List Char) :
    trimEndBy p (c :: cs) = c :: trimEndBy p cs := by
  rw [trimEndBy, trimEndBy, List.reverse_cons, List.dropWhile_append]
  split
  · next empty => simp_all
  · simp

theorem trim_cons {c : Char} (solid : isBlank c = false) (cs : List Char) :
    trim (c :: cs) = c :: trimEnd cs := by
  rw [trim, trimStart, List.dropWhile_cons_of_neg (by simp [solid]), trimEnd, trimEndBy_cons solid]
  rfl

theorem trimEnd_eq_nil_iff (cs : List Char) : trimEnd cs = [] ↔ allBlank cs = true := by
  rw [allBlank, List.all_eq_true]
  exact List.rdropWhile_eq_nil_iff

theorem count_trimEndBy {p : Char → Bool} {d : Char} (kept : p d = false) (cs : List Char) :
    (trimEndBy p cs).count d = cs.count d := by
  have rest (cs : List Char) : (cs.dropWhile p).count d = cs.count d := by
    induction cs with
    | nil => rfl
    | cons c cs ih =>
      rw [List.dropWhile_cons]
      split
      · next dropped =>
        have other : c ≠ d := by
          rintro rfl
          simp [kept] at dropped
        rw [ih, List.count_cons_of_ne (by simpa using other)]
      · rfl
  rw [trimEndBy, List.count_reverse, rest, List.count_reverse]

theorem getLast?_trimEnd (cs : List Char) : (trimEnd cs).getLast?.any isBlank = false := by
  have first := List.head?_dropWhile_not isBlank cs.reverse
  rw [trimEnd, trimEndBy, List.getLast?_reverse]
  split at first
  · next c head =>
    rw [head]
    simpa using first
  · next head => simp [head]

theorem head?_trimStart (cs : List Char) : (trimStart cs).head?.any isBlank = false := by
  have first := List.head?_dropWhile_not isBlank cs
  rw [trimStart]
  split at first
  · next c head =>
    rw [head]
    simpa using first
  · next head => simp [head]

theorem trimEnd_of_solid {cs : List Char} (back : cs.getLast?.any isBlank = false) :
    trimEnd cs = cs := by
  rcases cs.eq_nil_or_concat' with rfl | ⟨front, c, rfl⟩
  · rfl
  · exact trimEndBy_concat (by simpa using back) front

/-- White space in front is trimmed away. -/
theorem trim_blank_append {a : List Char} (blank : allBlank a = true) (cs : List Char) :
    trim (a ++ cs) = trim cs := by
  rw [trim, trimStart, List.dropWhile_append_of_pos (List.all_eq_true.mp blank)]
  rfl

theorem trim_append_blank {b : List Char} (blank : allBlank b = true) (cs : List Char) :
    trim (cs ++ b) = trim cs := by
  have behind (ds : List Char) : trimEnd (ds ++ b) = trimEnd ds :=
    trimEndBy_append (List.all_eq_true.mp blank) ds
  have front : trimEnd (trimStart (cs ++ b)) = trimEnd (trimStart cs) := by
    rw [trimStart, trimStart, List.dropWhile_append]
    split
    · next none =>
      rw [List.isEmpty_iff] at none
      rw [none, List.dropWhile_eq_nil_iff.mpr (List.all_eq_true.mp blank)]
    · exact behind _
  exact front

theorem trim_of_solid {cs : List Char} (front : cs.head?.any isBlank = false)
    (back : cs.getLast?.any isBlank = false) : trim cs = cs := by
  have stays : trimStart cs = cs := by
    cases cs with
    | nil => rfl
    | cons c cs => exact List.dropWhile_cons_of_neg (by simpa using front)
  rw [trim, stays, trimEnd_of_solid back]

theorem exists_trim (cs : List Char) :
    ∃ a b, cs = a ++ (trim cs ++ b) ∧ allBlank a = true ∧ allBlank b = true := by
  refine ⟨cs.takeWhile isBlank, ((trimStart cs).reverse.takeWhile isBlank).reverse, ?_, ?_, ?_⟩
  · rw [trim, trimEnd, trimEndBy, ← List.reverse_append, List.takeWhile_append_dropWhile,
      List.reverse_reverse, trimStart, List.takeWhile_append_dropWhile]
  · exact List.all_takeWhile
  · rw [allBlank, List.all_reverse]
    exact List.all_takeWhile

theorem trim_eq_nil_iff (cs : List Char) : trim cs = [] ↔ allBlank cs = true := by
  constructor
  · intro none
    obtain ⟨a, b, whole, before, after⟩ := exists_trim cs
    rw [whole, none, List.nil_append, allBlank, List.all_append, Bool.and_eq_true]
    exact ⟨before, after⟩
  · intro blank
    have none := trim_blank_append blank []
    rwa [List.append_nil] at none

/-- A line is `%` and an opening brace but for the white space around them. -/
theorem trim_opener_iff (cs : List Char) :
    trim ('%' :: cs) = ['%', '\x7b'] ↔ cs.head? = some '\x7b' ∧ allBlank cs.tail = true := by
  rw [trim_cons (by decide), List.cons.injEq]
  rcases cs with _ | ⟨c, cs⟩
  · simp [trimEnd, trimEndBy]
  · by_cases brace : c = '\x7b'
    · have solid : isBlank '\x7b' = false := by decide
      rw [brace, trimEnd, trimEndBy_cons solid, ← trimEnd, List.cons.injEq, trimEnd_eq_nil_iff]
      simp
    · have first : ['\x7b'] <+: c :: cs → c = '\x7b' := by
        intro initial
        exact (List.cons_prefix_cons.mp initial).1.symm
      have other : trimEnd (c :: cs) ≠ ['\x7b'] := fun same =>
        brace (first (same ▸ List.rdropWhile_prefix isBlank (c :: cs)))
      simp [other, brace]

end Text

end MatlabOutline
