import Mathlib.Data.List.DropRight
import MatlabOutline.Docstring.Association

/-!
Which comments document an entry, told in lines: the comments directly above it, the comment behind
it, and the comments directly below it unless they stand above another entry. The first of these
that says something is taken, and so no comment is taken for two entries.
-/

namespace MatlabOutline

/-- A stretch of the lines of a list of entries: a blank line, a comment on lines of its own, or an
entry with the comment behind it on its last line. A comment and an entry end `more` lines below
the line they begin on. -/
inductive Stretch
  | blank
  | comment (text : String) (more : Nat)
  | entry (more : Nat) (trailing : Option String)
deriving DecidableEq, Repr

namespace Stretch

def height : Stretch → Nat
  | blank => 1
  | comment _ more => more + 1
  | entry more _ => more + 1

def isComment : Stretch → Bool
  | comment .. => true
  | _ => false

def isEntry : Stretch → Bool
  | entry .. => true
  | _ => false

def text? : Stretch → Option String
  | comment text _ => some text
  | _ => none

end Stretch

/-- A stretch with the line it begins on. -/
structure Laid where
  line : Nat
  stretch : Stretch
deriving DecidableEq, Repr

namespace Laid

/-- Stretches on successive lines from `line` on. -/
def layOut (line : Nat) : List Stretch → List Laid
  | [] => []
  | s :: r => ⟨line, s⟩ :: layOut (line + s.height) r

/-- The line below a stretch. -/
def below (p : Laid) : Nat :=
  p.line + p.stretch.height

def lines (p : Laid) : List Nat :=
  List.range' p.line p.stretch.height

def isComment (p : Laid) : Bool :=
  p.stretch.isComment

def isEntry (p : Laid) : Bool :=
  p.stretch.isEntry

/-- The comments of a run, in order. -/
def texts (run : List Laid) : List String :=
  run.filterMap fun p => p.stretch.text?

/-- The longest run of comments that ends directly above. -/
def runAbove (above : List Laid) : List Laid :=
  above.rtakeWhile isComment

/-- The longest run of comments that begins directly below, unless an entry begins on the line
after it. -/
def runBelow (below : List Laid) : List Laid :=
  if (below.dropWhile isComment).head?.any isEntry then [] else below.takeWhile isComment

end Laid

/-- Comments that may document an entry: the lines they stand on, and what they say. -/
structure Candidate where
  lines : List Nat
  doc : Option String

/-- The candidate that a run of comments on lines of their own makes. -/
def Candidate.ofRun (run : List Laid) : Candidate where
  lines := run.flatMap Laid.lines
  doc := Docstring.ofComments (Laid.texts run)

/-- The candidate that the comment behind an entry makes, which is only the first line it says. -/
def Candidate.behind (line : Nat) (trailing : Option String) : Candidate where
  lines := [line]
  doc := trailing.bind fun text => (Docstring.ofComments [text]).bind fun doc =>
    (Text.lines doc.toList).head?.map String.ofList

/-- An entry among the stretches that it stands between. -/
structure EntrySite where
  above : List Laid
  line : Nat
  more : Nat
  trailing : Option String
  below : List Laid

namespace EntrySite

/-- The entries of a list in order, where `above` is what stands above the list. -/
def sitesFrom (above : List Laid) : List Laid → List EntrySite
  | [] => []
  | ⟨line, .entry more trailing⟩ :: below =>
    ⟨above, line, more, trailing, below⟩ ::
      sitesFrom (above ++ [⟨line, .entry more trailing⟩]) below
  | p :: below => sitesFrom (above ++ [p]) below

def sites (placed : List Laid) : List EntrySite :=
  sitesFrom [] placed

/-- The lines of the entry itself. -/
def laid (s : EntrySite) : Laid :=
  ⟨s.line, .entry s.more s.trailing⟩

def candidates (s : EntrySite) : List Candidate :=
  [.ofRun (Laid.runAbove s.above), .behind (s.line + s.more) s.trailing,
    .ofRun (Laid.runBelow s.below)]

/-- The first candidate that says something. -/
def chosen (s : EntrySite) : Option Candidate :=
  s.candidates.find? (·.doc.isSome)

def doc (s : EntrySite) : Option String :=
  s.chosen.bind Candidate.doc

/-- The lines that the docstring is taken from. -/
def sources (s : EntrySite) : List Nat :=
  (s.chosen.map Candidate.lines).getD []

end EntrySite

namespace Laid

theorem mem_lines {p : Laid} {line : Nat} : line ∈ p.lines ↔ p.line ≤ line ∧ line < p.below :=
  List.mem_range'_1

theorem line_lt_below (p : Laid) : p.line < p.below := by
  rcases p with ⟨line, _ | _ | _⟩ <;> simp [below, Stretch.height]

theorem le_of_mem_layOut {line : Nat} {stretches : List Stretch} :
    ∀ p ∈ layOut line stretches, line ≤ p.line := by
  induction stretches generalizing line with
  | nil => simp [layOut]
  | cons s r ih =>
    intro p member
    rcases List.mem_cons.mp member with rfl | later
    · exact Nat.le_refl line
    · exact Nat.le_trans (Nat.le_add_right line s.height) (ih p later)

theorem layOut_pairwise (line : Nat) (stretches : List Stretch) :
    (layOut line stretches).Pairwise fun p q => p.below ≤ q.line := by
  induction stretches generalizing line with
  | nil => exact .nil
  | cons s r ih => exact .cons le_of_mem_layOut (ih (line + s.height))

theorem runAbove_concat_comment (above : List Laid) {p : Laid} (comment : p.isComment = true) :
    runAbove (above ++ [p]) = runAbove above ++ [p] :=
  List.rtakeWhile_concat_pos _ _ _ comment

theorem runAbove_concat_other (above : List Laid) {p : Laid} (other : p.isComment = false) :
    runAbove (above ++ [p]) = [] :=
  List.rtakeWhile_concat_neg _ _ _ (by simp [other])

/-- The run above stops at a stretch that is no comment. -/
theorem runAbove_subset (front back : List Laid) {p : Laid} (other : p.isComment = false) :
    runAbove (front ++ p :: back) ⊆ back := by
  induction back using List.reverseRecOn with
  | nil => exact List.subset_nil.mpr (runAbove_concat_other front other)
  | append_singleton back q ih =>
    rw [← List.cons_append, ← List.append_assoc]
    rcases kind : q.isComment with _ | _
    · rw [runAbove_concat_other _ kind]
      exact List.nil_subset _
    · rw [runAbove_concat_comment _ kind]
      exact List.append_subset.mpr ⟨List.subset_append_of_subset_left _ ih, by simp⟩

theorem runBelow_subset_self (below : List Laid) : runBelow below ⊆ below := by
  unfold runBelow
  split
  · exact List.nil_subset _
  · exact (List.takeWhile_sublist _).subset

/-- The run below stops at a stretch that is no comment. -/
theorem runBelow_subset (front back : List Laid) {p : Laid} (other : p.isComment = false) :
    runBelow (front ++ p :: back) ⊆ front := by
  unfold runBelow
  split
  · exact List.nil_subset _
  · rw [List.takeWhile_append, List.takeWhile_cons_of_neg (by simp [other])]
    split
    · simp
    · exact (List.takeWhile_sublist _).subset

/-- A run that stands above an entry is not the run below another one. -/
theorem runBelow_above_entry {front : List Laid} (comments : ∀ q ∈ front, q.isComment = true)
    {p : Laid} (entry : p.isEntry = true) (back : List Laid) :
    runBelow (front ++ p :: back) = [] := by
  have other : p.isComment = false := by
    rcases p with ⟨line, _ | _ | _⟩
    · cases entry
    · cases entry
    · rfl
  rw [runBelow, List.dropWhile_append_of_pos comments, List.dropWhile_cons_of_neg (by simp [other])]
  simp [entry]

end Laid

namespace EntrySite

/-- The entry at `t` stands below the entry at `s`, in the same list. -/
def Precedes (s t : EntrySite) : Prop :=
  ∃ between, t.above = s.above ++ s.laid :: between ∧ s.below = between ++ t.laid :: t.below

theorem mem_sitesFrom {above placed : List Laid} :
    ∀ s ∈ sitesFrom above placed,
      ∃ between, s.above = above ++ between ∧ placed = between ++ s.laid :: s.below := by
  fun_induction sitesFrom above placed with
  | case1 => simp
  | case2 above line more trailing below ih =>
    intro s member
    rcases List.mem_cons.mp member with rfl | later
    · exact ⟨[], by simp, rfl⟩
    · obtain ⟨between, front, back⟩ := ih s later
      exact ⟨⟨line, .entry more trailing⟩ :: between, by simp [front], by simp [back]⟩
  | case3 above p below other ih =>
    intro s member
    obtain ⟨between, front, back⟩ := ih s member
    exact ⟨p :: between, by simp [front], by simp [back]⟩

theorem sitesFrom_map_laid (above placed : List Laid) :
    (sitesFrom above placed).map laid = placed.filter Laid.isEntry := by
  fun_induction sitesFrom above placed with
  | case1 => rfl
  | case2 above line more trailing below ih => exact congrArg (⟨line, .entry more trailing⟩ :: ·) ih
  | case3 above p below other ih =>
    have kept : p.isEntry = false := by
      rcases p with ⟨line, _ | _ | ⟨more, trailing⟩⟩
      · rfl
      · rfl
      · exact absurd rfl (other line more trailing)
    rw [ih, List.filter_cons_of_neg (by simp [kept])]

theorem sitesFrom_pairwise (above placed : List Laid) :
    (sitesFrom above placed).Pairwise Precedes := by
  fun_induction sitesFrom above placed with
  | case1 => exact .nil
  | case2 above line more trailing below ih =>
    refine .cons (fun t later => ?_) ih
    obtain ⟨between, front, back⟩ := mem_sitesFrom t later
    exact ⟨between, by rw [front, List.append_assoc]; rfl, back⟩
  | case3 above p below other ih => exact ih

theorem mem_sources {s : EntrySite} {line : Nat} (member : line ∈ s.sources) :
    (∃ p ∈ Laid.runAbove s.above, line ∈ p.lines) ∨ line = s.line + s.more ∨
      ∃ p ∈ Laid.runBelow s.below, line ∈ p.lines := by
  rcases taken : s.chosen with _ | c
  · simp [sources, taken] at member
  · have among := List.mem_of_find?_eq_some taken
    simp only [sources, taken, Option.map_some, Option.getD_some] at member
    simp only [candidates, List.mem_cons, List.not_mem_nil, or_false] at among
    rcases among with rfl | rfl | rfl
    · exact .inl (List.mem_flatMap.mp member)
    · exact .inr (.inl (List.mem_singleton.mp member))
    · exact .inr (.inr (List.mem_flatMap.mp member))

/-- The stretches of a site are in order, each ending before the next begins. -/
def Ordered (s : EntrySite) : Prop :=
  (s.above ++ s.laid :: s.below).Pairwise fun p q => p.below ≤ q.line

theorem Ordered.above {s : EntrySite} (ordered : s.Ordered) : ∀ p ∈ s.above, p.below ≤ s.line :=
  fun p member => (List.pairwise_append.mp ordered).2.2 p member s.laid List.mem_cons_self

theorem Ordered.rest {s : EntrySite} (ordered : s.Ordered) :
    (s.laid :: s.below).Pairwise fun p q => p.below ≤ q.line :=
  (List.pairwise_append.mp ordered).2.1

theorem Precedes.ordered {s t : EntrySite} (order : s.Precedes t) (ordered : s.Ordered) :
    t.Ordered := by
  obtain ⟨between, front, back⟩ := order
  unfold Ordered at ordered ⊢
  rwa [back, ← List.cons_append, ← List.append_assoc, ← front] at ordered

theorem sources_lt {s : EntrySite} (ordered : s.Ordered) {limit : Nat}
    (own : s.laid.below ≤ limit) (later : ∀ p ∈ Laid.runBelow s.below, p.below ≤ limit) :
    ∀ line ∈ s.sources, line < limit := by
  intro line member
  have inside : s.line + s.more < s.laid.below := Nat.lt_succ_self _
  rcases mem_sources member with ⟨p, run, on⟩ | rfl | ⟨p, run, on⟩
  · have bounds := Laid.mem_lines.mp on
    have order := ordered.above p ((List.rtakeWhile_suffix _ _).subset run)
    omega
  · omega
  · have bounds := Laid.mem_lines.mp on
    have order := later p run
    omega

theorem le_sources {t : EntrySite} (ordered : t.Ordered) {limit : Nat}
    (own : limit ≤ t.line) (earlier : ∀ p ∈ Laid.runAbove t.above, limit ≤ p.line) :
    ∀ line ∈ t.sources, limit ≤ line := by
  intro line member
  rcases mem_sources member with ⟨p, run, on⟩ | rfl | ⟨p, run, on⟩
  · exact Nat.le_trans (earlier p run) (Laid.mem_lines.mp on).1
  · omega
  · have bounds := Laid.mem_lines.mp on
    have order := (List.pairwise_cons.mp ordered.rest).1 p (Laid.runBelow_subset_self _ run)
    have filled : t.line < t.laid.below := t.laid.line_lt_below
    omega

/-- Between two entries there is a line with all comments of the upper one above it, and all
comments of the lower one below it. -/
theorem Precedes.exists_limit {s t : EntrySite} (order : s.Precedes t) (ordered : s.Ordered) :
    ∃ limit, (∀ line ∈ s.sources, line < limit) ∧ ∀ line ∈ t.sources, limit ≤ line := by
  have ordered' := order.ordered ordered
  obtain ⟨between, front, back⟩ := order
  have rest := ordered.rest
  rw [back] at rest
  obtain ⟨lower, rest⟩ := List.pairwise_cons.mp rest
  by_cases comments : ∀ q ∈ between, q.isComment = true
  · -- the comments between them are the run above the lower entry
    refine ⟨s.laid.below, sources_lt ordered (Nat.le_refl _) ?_,
      le_sources ordered' (lower t.laid (by simp)) fun p run => lower p ?_⟩
    · rw [back, Laid.runBelow_above_entry comments rfl]
      simp
    · rw [front] at run
      exact List.mem_append_left _ (Laid.runAbove_subset s.above between rfl run)
  · -- something else stands between them, which both runs stop at
    push Not at comments
    obtain ⟨q, member, other⟩ := comments
    replace other := Bool.eq_false_iff.mpr other
    obtain ⟨upper, under, rfl⟩ := List.append_of_mem member
    rw [List.append_assoc, List.cons_append] at rest back
    obtain ⟨-, rest, upward⟩ := List.pairwise_append.mp rest
    have following := (List.pairwise_cons.mp rest).1
    have filled := q.line_lt_below
    refine ⟨q.line, sources_lt ordered (lower q (by simp)) fun p run => ?_,
      le_sources ordered' ?_ fun p run => ?_⟩
    · rw [back] at run
      exact upward p (Laid.runBelow_subset upper _ other run) q List.mem_cons_self
    · have order : q.below ≤ t.line := following t.laid (by simp)
      omega
    · rw [front, ← List.cons_append, ← List.append_assoc] at run
      have order := following p (List.mem_append_left _ (Laid.runAbove_subset _ under other run))
      omega

theorem sources_disjoint {s t : EntrySite} (order : s.Precedes t) (ordered : s.Ordered) :
    s.sources.Disjoint t.sources := by
  obtain ⟨limit, upper, lower⟩ := order.exists_limit ordered
  intro line inUpper inLower
  exact absurd (upper line inUpper) (Nat.not_lt.mpr (lower line inLower))

/-- No line of a list documents two of its entries. -/
theorem sources_pairwise (line : Nat) (stretches : List Stretch) :
    (sites (Laid.layOut line stretches)).Pairwise fun s t => s.sources.Disjoint t.sources := by
  refine (sitesFrom_pairwise [] _).imp_of_mem fun {s t} member _ order => sources_disjoint order ?_
  obtain ⟨between, front, back⟩ := mem_sitesFrom s member
  have ordered := Laid.layOut_pairwise line stretches
  rwa [back, ← List.nil_append between, ← front] at ordered

end EntrySite

end MatlabOutline
