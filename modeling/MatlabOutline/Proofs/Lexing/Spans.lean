import Mathlib.Data.List.Chain
import MatlabOutline.Proofs.Lexing.Lines
import MatlabOutline.Proofs.Lexing.LineScanners

/-!
The places of lexemes in a text, where white space is passed over. Two runs of lexemes of one text
that agree in the texts of all lexemes but white space have these at the same places
(`Lexer.spans_eq_of_texts`).
-/

namespace MatlabOutline

namespace Lexer

/-- The lexemes but for white space, each with the number of characters before it, counted from
`n` on. -/
def spans (n : Nat) : List (TokenKind × List Char) → List (Nat × List Char)
  | [] => []
  | x :: xs =>
    if x.1 = .whitespace then spans (n + x.2.length) xs
    else (n, x.2) :: spans (n + x.2.length) xs

/-- The lexemes but for white space. -/
def visible (xs : List (TokenKind × List Char)) : List (TokenKind × List Char) :=
  xs.filter fun x => !(x.1 == .whitespace)

/-- The places where lexemes end, counted from `n` on. -/
def ends (n : Nat) : List (TokenKind × List Char) → List Nat
  | [] => []
  | x :: xs => (n + x.2.length) :: ends (n + x.2.length) xs

/-- No lexeme reaches over any of the places. -/
def Apart (lexemes : List (Nat × List Char)) (places : List Nat) : Prop :=
  ∀ s ∈ lexemes, ∀ e ∈ places, e ≤ s.1 ∨ s.1 + s.2.length ≤ e

instance (lexemes : List (Nat × List Char)) (places : List Nat) : Decidable (Apart lexemes places) :=
  inferInstanceAs (Decidable (∀ s ∈ lexemes, ∀ e ∈ places, e ≤ s.1 ∨ s.1 + s.2.length ≤ e))

theorem spans_space {x : TokenKind × List Char} (space : x.1 = .whitespace) (n : Nat)
    (xs : List (TokenKind × List Char)) : spans n (x :: xs) = spans (n + x.2.length) xs := by
  rw [spans, if_pos space]

theorem spans_solid {x : TokenKind × List Char} (solid : x.1 ≠ .whitespace) (n : Nat)
    (xs : List (TokenKind × List Char)) :
    spans n (x :: xs) = (n, x.2) :: spans (n + x.2.length) xs := by
  rw [spans, if_neg solid]

theorem visible_space {x : TokenKind × List Char} (space : x.1 = .whitespace)
    (xs : List (TokenKind × List Char)) : visible (x :: xs) = visible xs := by
  simp [visible, space]

theorem visible_solid {x : TokenKind × List Char} (solid : x.1 ≠ .whitespace)
    (xs : List (TokenKind × List Char)) : visible (x :: xs) = x :: visible xs := by
  simp [visible, solid]

theorem mem_visible {x : TokenKind × List Char} {xs : List (TokenKind × List Char)} :
    x ∈ visible xs ↔ x ∈ xs ∧ x.1 ≠ .whitespace := by
  simp [visible]

theorem texts_spans (n : Nat) (xs : List (TokenKind × List Char)) :
    (spans n xs).map Prod.snd = (visible xs).map Prod.snd := by
  induction xs generalizing n with
  | nil => rfl
  | cons x xs ih =>
    by_cases space : x.1 = .whitespace
    · rw [spans_space space, visible_space space, ih]
    · rw [spans_solid space, visible_solid space, List.map_cons, List.map_cons, ih]

theorem le_of_mem_spans {n : Nat} {xs : List (TokenKind × List Char)} {s : Nat × List Char}
    (member : s ∈ spans n xs) : n ≤ s.1 := by
  induction xs generalizing n with
  | nil => simp [spans] at member
  | cons x xs ih =>
    by_cases space : x.1 = .whitespace
    · rw [spans_space space] at member
      exact Nat.le_trans (Nat.le_add_right _ _) (ih member)
    · rw [spans_solid space] at member
      rcases List.mem_cons.mp member with rfl | later
      · exact Nat.le_refl _
      · exact Nat.le_trans (Nat.le_add_right _ _) (ih later)

theorem le_of_mem_ends {n e : Nat} {xs : List (TokenKind × List Char)} (member : e ∈ ends n xs) :
    n ≤ e := by
  induction xs generalizing n with
  | nil => simp [ends] at member
  | cons x xs ih =>
    rcases List.mem_cons.mp member with rfl | later
    · exact Nat.le_add_right _ _
    · exact Nat.le_trans (Nat.le_add_right _ _) (ih later)

/-- Lexemes do not reach over one another. -/
theorem apart_self (n : Nat) (xs : List (TokenKind × List Char)) : Apart (spans n xs) (ends n xs) := by
  induction xs generalizing n with
  | nil => simp [Apart, spans]
  | cons x xs ih =>
    intro s span e place
    have later (behind : s ∈ spans (n + x.2.length) xs) : e ≤ s.1 ∨ s.1 + s.2.length ≤ e := by
      rcases List.mem_cons.mp place with rfl | further
      · exact .inl (le_of_mem_spans behind)
      · exact ih _ s behind e further
    by_cases space : x.1 = .whitespace
    · rw [spans_space space] at span
      exact later span
    · rw [spans_solid space] at span
      rcases List.mem_cons.mp span with rfl | behind
      · right
        rcases List.mem_cons.mp place with rfl | further
        · exact Nat.le_refl _
        · exact le_of_mem_ends further
      · exact later behind

theorem Apart.mono {lexemes lexemes' : List (Nat × List Char)} {places places' : List Nat}
    (apart : Apart lexemes places) (fewer : lexemes' ⊆ lexemes) (less : places' ⊆ places) :
    Apart lexemes' places' :=
  fun s span e place => apart s (fewer span) e (less place)

section Gap

/-- White space with no line feed. -/
def IsGap (w : List Char) : Prop :=
  ∀ c ∈ w, isBlank c = true ∧ c ≠ '\n'

instance (w : List Char) : Decidable (IsGap w) :=
  List.decidableBAll (fun c => isBlank c = true ∧ c ≠ '\n') w

theorem IsGap.nil : IsGap [] :=
  List.forall_mem_nil _

theorem IsGap.space : IsGap [' '] := by
  decide

theorem IsGap.tail {c : Char} {w : List Char} (gap : IsGap (c :: w)) : IsGap w :=
  fun d member => gap d (List.mem_cons_of_mem _ member)

theorem IsGap.append {v w : List Char} (first : IsGap v) (second : IsGap w) : IsGap (v ++ w) := by
  intro c member
  rcases List.mem_append.mp member with left | right
  · exact first c left
  · exact second c right

/-- A line end or a text that does not begin with white space. -/
def IsSolid (u : List Char) : Prop :=
  u = ['\n'] ∨ u = ['\r', '\n'] ∨ ∃ c r, u = c :: r ∧ isBlank c = false

/-- White space before a line end or solid text is told from it. -/
theorem IsGap.eq_of_append {v w u x y : List Char} (first : IsGap v) (second : IsGap w)
    (solid : IsSolid u) (same : v ++ (u ++ x) = w ++ (u ++ y)) : v = w := by
  -- A gap that goes on where the other has ended would begin with solid text.
  have stuck {d : Char} {t z x : List Char} (gap : IsGap (d :: t))
      (same : u ++ x = d :: t ++ (u ++ z)) : False := by
    have here := gap d (by simp)
    rcases solid with rfl | rfl | ⟨c, r, rfl, blank⟩
    · obtain ⟨rfl, _⟩ := List.cons.inj same
      exact here.2 rfl
    · obtain ⟨rfl, rest⟩ := List.cons.inj same
      rcases t with _ | ⟨e, t⟩
      · simp at rest
      · obtain ⟨rfl, _⟩ := List.cons.inj rest
        exact (gap '\n' (by simp)).2 rfl
    · obtain ⟨rfl, _⟩ := List.cons.inj same
      simp [blank] at here
  induction v generalizing w with
  | nil =>
    rcases w with _ | ⟨d, t⟩
    · rfl
    · exact (stuck second same).elim
  | cons c v ih =>
    rcases w with _ | ⟨d, t⟩
    · exact (stuck first same.symm).elim
    · obtain ⟨rfl, rest⟩ := List.cons.inj same
      rw [ih first.tail second.tail rest]

/-- White space is a gap, and every other lexeme is solid. -/
def IsShaped (x : TokenKind × List Char) : Prop :=
  if x.1 = .whitespace then IsGap x.2 else IsSolid x.2

/-- The first lexeme behind a gap. -/
theorem spans_eq_cons {n m : Nat} {xs : List (TokenKind × List Char)} {u : List Char}
    {rest : List (Nat × List Char)} (shaped : ∀ x ∈ xs, IsShaped x)
    (first : spans n xs = (m, u) :: rest) :
    ∃ gap ys, spelled xs = gap ++ (u ++ spelled ys) ∧ IsGap gap ∧
      IsSolid u ∧ m = n + gap.length ∧ rest = spans (m + u.length) ys ∧ ∀ y ∈ ys, IsShaped y := by
  induction xs generalizing n with
  | nil => simp [spans] at first
  | cons x xs ih =>
    rw [List.forall_mem_cons] at shaped
    by_cases space : x.1 = .whitespace
    · rw [spans_space space] at first
      obtain ⟨gap, ys, text, blank, solid, place, behind, further⟩ := ih shaped.2 first
      have here : IsGap x.2 := by simpa [IsShaped, space] using shaped.1
      refine ⟨x.2 ++ gap, ys, by simp [text], here.append blank, solid, ?_, behind, further⟩
      rw [place, List.length_append]
      omega
    · rw [spans_solid space, List.cons.injEq, Prod.mk.injEq] at first
      obtain ⟨⟨rfl, rfl⟩, rfl⟩ := first
      refine ⟨[], xs, by simp, .nil, ?_, by simp, rfl, shaped.2⟩
      simpa [IsShaped, space] using shaped.1

/-- Lexemes of one text whose texts agree stand at the same places. -/
theorem spans_eq_of_texts {xs ys : List (TokenKind × List Char)} (left : ∀ x ∈ xs, IsShaped x)
    (right : ∀ y ∈ ys, IsShaped y)
    (text : spelled xs = spelled ys) {n : Nat}
    (texts : (spans n xs).map Prod.snd = (spans n ys).map Prod.snd) : spans n xs = spans n ys := by
  generalize places : spans n xs = ss at texts
  generalize others : spans n ys = ts at texts
  induction ss generalizing n xs ys ts with
  | nil =>
    rw [List.map_nil, eq_comm, List.map_eq_nil_iff] at texts
    exact texts.symm
  | cons s ss ih =>
    rcases ts with _ | ⟨t, ts⟩
    · simp at texts
    obtain ⟨m, u⟩ := s
    obtain ⟨k, v⟩ := t
    obtain ⟨rfl, further⟩ : u = v ∧ ss.map Prod.snd = ts.map Prod.snd := by simpa using texts
    obtain ⟨gap, xs', whole, blank, solid, rfl, rfl, left'⟩ := spans_eq_cons left places
    obtain ⟨gap', ys', whole', blank', _, rfl, rfl, right'⟩ := spans_eq_cons right others
    rw [whole, whole'] at text
    obtain rfl := blank.eq_of_append blank' solid text
    rw [List.append_cancel_left_eq, List.append_cancel_left_eq] at text
    rw [ih left' right' text rfl _ rfl further]

end Gap

section Lexemes

theorem step_space {st : LexState} {c : Char} {r : List Char} (blank : isBlank c = true)
    (going : Scan.atLineEnd (c :: r) = false) :
    step st c r = ⟨.whitespace, Scan.spaces r, st.blank⟩ := by
  have feed : (c == '\n') = false := by simp_all [Scan.atLineEnd]
  have carriage : (c == '\r' && r.head? == some '\n') = false := by simp_all [Scan.atLineEnd]
  rw [step, feed, carriage]
  simp [blank]

theorem isBlank_spaces (r : List Char) : ∀ c ∈ (Scan.spaces r).taken, isBlank c = true := by
  fun_induction Scan.spaces r with
  | case4 c r _ _ blank ih =>
    intro d member
    rcases List.mem_cons.mp member with rfl | later
    · exact blank
    · exact ih d later
  | _ => simp

/-- White space begins with white space. -/
theorem isBlank_of_space {st : LexState} {c : Char} {r : List Char}
    (space : (step st c r).kind = .whitespace) : isBlank c = true := by
  fun_cases step st c r
  case case3 blank => exact blank
  case case6 =>
    have kinds := kind_dot st r
    simp_all [step]
  case case10 =>
    have kinds := kind_word st c r
    simp_all [step]
  all_goals simp_all [step, operator]

theorem step_of_space {st : LexState} {c : Char} {r : List Char}
    (space : (step st c r).kind = .whitespace) :
    step st c r = ⟨.whitespace, Scan.spaces r, st.blank⟩ := by
  apply step_space (isBlank_of_space space)
  cases ended : Scan.atLineEnd (c :: r) with
  | false => rfl
  | true =>
    rcases Scan.atLineEnd_cons_iff.mp ended with rfl | ⟨rfl, s, rfl⟩ <;> simp [step] at space

theorem isShaped_step (st : LexState) (c : Char) (r : List Char) :
    IsShaped ((step st c r).kind, c :: (step st c r).split.taken) := by
  by_cases space : (step st c r).kind = .whitespace
  · have none := feeds_step_of_whitespace space
    rw [IsShaped, if_pos space]
    intro d member
    refine ⟨?_, ?_⟩
    · rcases List.mem_cons.mp member with rfl | later
      · exact isBlank_of_space space
      · rw [step_of_space space] at later
        exact isBlank_spaces r d later
    · rintro rfl
      exact List.count_eq_zero.mp none member
  · rw [IsShaped, if_neg space]
    by_cases newline : (step st c r).kind = .newline
    · rcases newline_cases newline with rfl | ⟨rfl, head⟩
      · exact .inl rfl
      · simp [step, head, IsSolid]
    · refine .inr (.inr ⟨c, _, rfl, ?_⟩)
      cases blank : isBlank c with
      | false => rfl
      | true =>
        cases ended : Scan.atLineEnd (c :: r) with
        | true =>
          rcases Scan.atLineEnd_cons_iff.mp ended with rfl | ⟨rfl, s, rfl⟩ <;> simp [step] at newline
        | false => simp [step_space blank ended] at space

theorem isShaped_lexemes (st : LexState) (cs : List Char) : ∀ x ∈ lexemes st cs, IsShaped x :=
  forall_lexemes (motive := fun kind cs => IsShaped (kind, cs)) isShaped_step st cs

/-- No line end arises between two texts. -/
def NoBreak (w y : List Char) : Prop :=
  w.getLast? = some '\r' → y.head? ≠ some '\n'

theorem NoBreak.tail {c : Char} {w y : List Char} (apart : NoBreak (c :: w) y) : NoBreak w y := by
  intro last
  apply apart
  rcases w with _ | ⟨d, w⟩
  · simp at last
  · simpa using last

theorem going_of_gap {c : Char} {w y : List Char} (gap : IsGap (c :: w)) (apart : NoBreak (c :: w) y) :
    Scan.atLineEnd (c :: (w ++ y)) = false := by
  have here := (gap c (by simp)).2
  rcases w with _ | ⟨d, w⟩
  · have behind : c = '\r' → y.head? ≠ some '\n' := by simpa [NoBreak] using apart
    simpa [Scan.atLineEnd, here] using behind
  · have next := (gap d (by simp)).2
    simp [Scan.atLineEnd, here, next]

theorem spaces_gap {w y : List Char} (gap : IsGap w) (apart : NoBreak w y) :
    Scan.spaces (w ++ y) = (Scan.spaces y).prepend w := by
  induction w with
  | nil => rfl
  | cons c w ih =>
    have blank := (gap c (by simp)).1
    rw [List.cons_append, Scan.spaces_cons, going_of_gap gap apart, ih gap.tail apart.tail]
    simp [blank, Split.push, Split.prepend]

/-- Behind white space the white space in front can be passed over. -/
theorem spans_spaces (st : LexState) (n : Nat) (y : List Char) :
    spans n (lexemes st.blank y) =
      spans (n + (Scan.spaces y).taken.length) (lexemes st.blank (Scan.spaces y).rest) := by
  rcases y with _ | ⟨c, r⟩
  · rfl
  have spaces := Scan.spaces_cons c r
  cases ended : Scan.atLineEnd (c :: r) with
  | true =>
    rw [if_pos ended] at spaces
    rw [spaces]
    rfl
  | false =>
    rw [if_neg (by simp [ended])] at spaces
    split at spaces
    · next blank =>
      rw [spaces, lexemes_of_step (step_space blank ended), spans_space rfl]
      rfl
    · rw [spaces]
      rfl

/-- White space in front moves the lexemes, and the next of them follows no operand. -/
theorem spans_gap {w y : List Char} (filled : w ≠ []) (gap : IsGap w) (apart : NoBreak w y)
    (st : LexState) (n : Nat) :
    spans n (lexemes st (w ++ y)) = spans (n + w.length) (lexemes st.blank y) := by
  rcases w with _ | ⟨c, w⟩
  · simp at filled
  have blank := (gap c (by simp)).1
  have going := going_of_gap gap apart
  rw [List.cons_append, lexemes_of_step (step_space blank going), spans_space rfl,
    spans_spaces st _ y, spaces_gap gap.tail apart.tail]
  simp only [Split.prepend, List.length_cons, List.length_append]
  congr 1
  omega

/-- White space that no lexeme takes a part of forms no line end with what follows. -/
theorem noBreak_of_apart {w y : List Char} (gap : IsGap w) {st : LexState} {n : Nat}
    (apart : Apart (spans n (lexemes st (w ++ y))) [n + w.length]) : NoBreak w y := by
  intro last head
  obtain ⟨v, rfl⟩ := List.getLast?_eq_some_iff.mp last
  rcases y with _ | ⟨d, z⟩
  · simp at head
  obtain rfl : d = '\n' := by simpa using head
  have ended (s : LexState) :
      lexemes s ('\r' :: '\n' :: z) = (.newline, ['\r', '\n']) :: lexemes .initial z := by
    rw [lexemes]
    rfl
  have member : (n + v.length, ['\r', '\n']) ∈ spans n (lexemes st (v ++ ['\r'] ++ '\n' :: z)) := by
    rw [List.append_assoc]
    by_cases empty : v = []
    · subst empty
      simp [ended, spans]
    · have blank : IsGap v := fun c inside => gap c (List.mem_append_left _ inside)
      rw [spans_gap empty blank (by simp [NoBreak])]
      simp [ended, spans]
  have bound := apart _ member _ (List.mem_singleton_self _)
  simp only [List.length_append, List.length_cons, List.length_nil] at bound
  omega

end Lexemes

end Lexer

end MatlabOutline
