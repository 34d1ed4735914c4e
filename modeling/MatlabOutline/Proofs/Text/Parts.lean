import MatlabOutline.Text.Blank

/-!
Texts cut into parts at a mark, and parts put together with the mark between them. Parts without the
mark are found again (`splitAt_joinWith`), and the parts of a text make it up (`joinWith_splitAt`).
-/

namespace MatlabOutline

namespace Text

theorem splitAt_of_not_mem {d : Char} {cs : List Char} (absent : d ∉ cs) : splitAt d cs = [cs] := by
  induction cs with
  | nil => rfl
  | cons c cs ih =>
    rw [List.mem_cons, not_or] at absent
    rw [splitAt, if_neg (Ne.symm absent.1), ih absent.2]

theorem splitAt_append {d : Char} {cs : List Char} (absent : d ∉ cs) (ds : List Char) :
    splitAt d (cs ++ d :: ds) = cs :: splitAt d ds := by
  induction cs with
  | nil => simp [splitAt]
  | cons c cs ih =>
    rw [List.mem_cons, not_or] at absent
    rw [List.cons_append, splitAt, if_neg (Ne.symm absent.1), ih absent.2]

theorem not_mem_of_mem_splitAt {d : Char} {cs part : List Char} (member : part ∈ splitAt d cs) :
    d ∉ part := by
  induction cs generalizing part with
  | nil => simp_all [splitAt]
  | cons c cs ih =>
    by_cases mark : c = d
    · rw [splitAt, if_pos mark, List.mem_cons] at member
      rcases member with rfl | later
      · exact List.not_mem_nil
      · exact ih later
    · obtain ⟨p, ps, cut⟩ := List.exists_cons_of_ne_nil (splitAt_ne_nil d cs)
      rw [splitAt, if_neg mark, cut, List.mem_cons] at member
      rcases member with rfl | later
      · rw [List.mem_cons, not_or]
        exact ⟨Ne.symm mark, ih (cut ▸ List.mem_cons_self)⟩
      · exact ih (cut ▸ List.mem_cons_of_mem p later)

theorem mem_of_mem_splitAt {d c : Char} {cs part : List Char} (member : part ∈ splitAt d cs)
    (inside : c ∈ part) : c ∈ cs := by
  induction cs generalizing part with
  | nil => simp_all [splitAt]
  | cons first cs ih =>
    by_cases mark : first = d
    · rw [splitAt, if_pos mark, List.mem_cons] at member
      rcases member with rfl | later
      · cases inside
      · exact List.mem_cons_of_mem first (ih later inside)
    · obtain ⟨p, ps, cut⟩ := List.exists_cons_of_ne_nil (splitAt_ne_nil d cs)
      rw [splitAt, if_neg mark, cut, List.mem_cons] at member
      rcases member with rfl | later
      · rcases List.mem_cons.mp inside with rfl | more
        · exact List.mem_cons_self
        · exact List.mem_cons_of_mem first (ih (cut ▸ List.mem_cons_self) more)
      · exact List.mem_cons_of_mem first (ih (cut ▸ List.mem_cons_of_mem p later) inside)

theorem joinWith_cons_cons (d : Char) (p q : List Char) (qs : List (List Char)) :
    joinWith d (p :: q :: qs) = p ++ d :: joinWith d (q :: qs) := by
  simp [joinWith, List.intercalate]

/-- Parts that are put together are found again. -/
theorem splitAt_joinWith {d : Char} {ps : List (List Char)} (filled : ps ≠ [])
    (whole : ∀ p ∈ ps, d ∉ p) : splitAt d (joinWith d ps) = ps := by
  induction ps with
  | nil => exact absurd rfl filled
  | cons p ps ih =>
    obtain ⟨alone, rest⟩ := List.forall_mem_cons.mp whole
    rcases ps with _ | ⟨q, qs⟩
    · simp [joinWith, splitAt_of_not_mem alone]
    · rw [joinWith_cons_cons, splitAt_append alone, ih (by simp) rest]

theorem filter_splitAt_joinWith {d : Char} {ps : List (List Char)}
    (whole : ∀ p ∈ ps, d ∉ p) (filled : ∀ p ∈ ps, p ≠ []) :
    (splitAt d (joinWith d ps)).filter (!·.isEmpty) = ps := by
  rcases ps with _ | ⟨p, ps⟩
  · rfl
  · rw [splitAt_joinWith (by simp) whole, List.filter_eq_self]
    simpa using filled

theorem joinWith_splitAt (d : Char) (cs : List Char) : joinWith d (splitAt d cs) = cs := by
  induction cs with
  | nil => rfl
  | cons c cs ih =>
    obtain ⟨p, ps, cut⟩ := List.exists_cons_of_ne_nil (splitAt_ne_nil d cs)
    rw [cut] at ih
    by_cases mark : c = d
    · rw [splitAt, if_pos mark, cut, mark]
      simpa [joinWith, List.intercalate] using ih
    · rw [splitAt, if_neg mark, cut]
      cases ps <;> simpa [joinWith, List.intercalate] using ih

theorem joinWith_concat (d : Char) {ps : List (List Char)} (filled : ps ≠ []) (last : List Char) :
    joinWith d (ps ++ [last]) = joinWith d ps ++ d :: last := by
  induction ps with
  | nil => exact absurd rfl filled
  | cons p ps ih =>
    cases ps with
    | nil => simp [joinWith, List.intercalate]
    | cons q qs =>
      rw [List.cons_append, List.cons_append, joinWith_cons_cons, joinWith_cons_cons,
        ← List.cons_append, ih (by simp)]
      simp

theorem mem_joinWith {d c : Char} {parts : List (List Char)} (member : c ∈ joinWith d parts) :
    c = d ∨ ∃ part ∈ parts, c ∈ part := by
  induction parts with
  | nil => cases member
  | cons p ps ih =>
    cases ps with
    | nil => exact .inr ⟨p, List.mem_cons_self, by simpa [joinWith] using member⟩
    | cons q qs =>
      rw [joinWith_cons_cons, List.mem_append, List.mem_cons] at member
      rcases member with first | rfl | later
      · exact .inr ⟨p, List.mem_cons_self, first⟩
      · exact .inl rfl
      · rcases ih later with point | ⟨part, inside, here⟩
        · exact .inl point
        · exact .inr ⟨part, List.mem_cons_of_mem p inside, here⟩

end Text

end MatlabOutline
