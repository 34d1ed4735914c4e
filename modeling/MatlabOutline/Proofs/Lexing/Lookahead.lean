import MatlabOutline.Token.Lexer

/-!
How far scanners look ahead. A scanner that stops before some text stops there as well before any
text that reads alike: the same up to its first line end, but for empty lists `()` put behind words.
-/

namespace MatlabOutline

/-- The second text is the first with empty lists put behind some of its words. What follows a
line end is free. -/
inductive Padded : List Char → List Char → Prop
  | nil : Padded [] []
  | line (r r' : List Char) : Padded ('\n' :: r) ('\n' :: r')
  | cons (c : Char) {r r' : List Char} : Padded r r' → Padded (c :: r) (c :: r')
  | list {c : Char} {r r' : List Char} : isIdentRest c = true → r.head?.any isIdentRest = false →
      Padded r r' → Padded (c :: r) (c :: '(' :: ')' :: r')

theorem ne_of_isIdentRest {c d : Char} (ident : isIdentRest c = true) (other : isIdentRest d = false) :
    c ≠ d := by
  rintro rfl
  simp [ident] at other

namespace Padded

theorem refl (r : List Char) : Padded r r := by
  induction r with
  | nil => exact .nil
  | cons c r ih => exact .cons c ih

theorem append {r r' : List Char} (p : List Char) (padded : Padded r r') :
    Padded (p ++ r) (p ++ r') := by
  induction p with
  | nil => exact padded
  | cons c p ih => exact .cons c ih

theorem head?_eq {r r' : List Char} (padded : Padded r r') : r'.head? = r.head? := by
  cases padded <;> rfl

theorem nil_left {r : List Char} (padded : Padded [] r) : r = [] := by
  cases padded
  rfl

/-- Behind a character that ends no word the texts still read alike, or a line has ended. -/
theorem tail {c : Char} {r s : List Char} (padded : Padded (c :: r) s) (word : isIdentRest c = false)
    (feed : c ≠ '\n') : ∃ r', s = c :: r' ∧ Padded r r' := by
  cases padded with
  | line r r' => exact absurd rfl feed
  | cons c rest => exact ⟨_, rfl, rest⟩
  | list ident _ rest => simp [ident] at word

/-- A text that has a line end reads like itself with anything put behind it. -/
theorem append_right {r : List Char} (feed : '\n' ∈ r) (t : List Char) : Padded r (r ++ t) := by
  induction r with
  | nil => simp at feed
  | cons c r ih =>
    by_cases first : c = '\n'
    · rw [first]
      exact .line _ _
    · exact .cons c (ih (by simpa [Ne.symm first] using feed))

end Padded

/-- A split text reads like what was taken before a rest that reads like its own. -/
theorem Split.padded_append {s : Split} {r r' : List Char} (total : s.whole = r)
    (padded : Padded s.rest r') : Padded r (s.taken ++ r') := by
  rw [← total]
  exact padded.append s.taken

namespace Scan

/-- On the text the scanner stops where it stops before any other rest that reads alike. -/
def StableAt (f : List Char → Split) (r : List Char) : Prop :=
  ∀ r', Padded (f r).rest r' → f ((f r).taken ++ r') = ⟨(f r).taken, r'⟩

def Stable (f : List Char → Split) : Prop :=
  ∀ r, StableAt f r

theorem StableAt.stop {f : List Char → Split} {r : List Char} (here : f r = ⟨[], r⟩)
    (alike : ∀ s, Padded r s → f s = ⟨[], s⟩) : StableAt f r := by
  intro r' padded
  rw [here] at padded ⊢
  exact alike r' padded

theorem StableAt.nil {f : List Char → Split} (here : f [] = ⟨[], []⟩) : StableAt f [] := by
  apply StableAt.stop here
  intro s padded
  rw [padded.nil_left, here]

/-- One character is taken, and another scanner goes on. -/
theorem StableAt.push {f g : List Char → Split} {c : Char} {r : List Char} (total : (g r).whole = r)
    (here : f (c :: r) = (g r).push c) (alike : ∀ s, Padded r s → f (c :: s) = (g s).push c)
    (rest : StableAt g r) : StableAt f (c :: r) := by
  intro r' padded
  rw [here] at padded ⊢
  have step := alike _ (Split.padded_append total padded)
  rw [rest r' padded] at step
  exact step

theorem StableAt.andThen {f g : List Char → Split} {r : List Char} (first : StableAt f r)
    (second : StableAt g (f r).rest) (total : (g (f r).rest).whole = (f r).rest) :
    StableAt (fun r => (f r).andThen g) r := by
  intro r' padded
  have before := first ((g (f r).rest).taken ++ r') (Split.padded_append total padded)
  have behind := second r' padded
  simp only [Split.andThen, Split.prepend, List.append_assoc] at before ⊢
  rw [before, behind]

theorem Stable.andThen {f g : List Char → Split} (first : Stable f) (second : Stable g)
    (total : ∀ r, (g r).whole = r) : Stable fun r => (f r).andThen g :=
  fun r => (first r).andThen (second _) (total _)

/-- A scanner that agrees with a stable one on all texts that read alike. -/
theorem StableAt.congr {f g : List Char → Split} {r : List Char} (rest : StableAt g r)
    (total : (g r).whole = r) (same : ∀ s, Padded r s → f s = g s) : StableAt f r := by
  intro r' padded
  rw [same r (.refl r)] at padded ⊢
  rw [same _ (Split.padded_append total padded)]
  exact rest r' padded

theorem run_of_head {p : Char → Bool} {taken rest : List Char} (all : taken.all p = true)
    (stop : rest.head?.any p = false) : run p (taken ++ rest) = ⟨taken, rest⟩ := by
  induction taken with
  | nil => cases rest <;> simp_all [run]
  | cons c taken ih =>
    simp only [List.all_cons, Bool.and_eq_true] at all
    have rest := ih all.2
    simp only [run, Split.mk.injEq] at rest
    simp [run, all.1, rest]

theorem head_rest_run (p : Char → Bool) (r : List Char) : (run p r).rest.head?.any p = false := by
  induction r with
  | nil => rfl
  | cons c r ih =>
    by_cases member : p c = true
    · simpa [run, member] using ih
    · simp [run, member]

theorem all_taken_run (p : Char → Bool) (r : List Char) : (run p r).taken.all p = true := by
  simp [run]

theorem stable_run (p : Char → Bool) : Stable (run p) := by
  intro r r' padded
  apply run_of_head (all_taken_run p r)
  rw [padded.head?_eq]
  exact head_rest_run p r

end Scan

end MatlabOutline
