import MatlabOutline.Proofs.Lexing.Lines

/-!
Edits: a rewriting of a text, character by character. They tell for each place of the new text the
place of the old text that it comes from (`Edit.origin`), and how many line ends were cut on the way
there (`Edit.feeds_take_origin`).
-/

namespace MatlabOutline

inductive Edit
  | keep (c : Char)
  | cut (c : Char)
  | add (c : Char)
deriving DecidableEq, Repr

namespace Edit

/-- The text before the edits. -/
def source : List Edit → List Char
  | [] => []
  | keep c :: r => c :: source r
  | cut c :: r => c :: source r
  | add _ :: r => source r

/-- The text after the edits. -/
def target : List Edit → List Char
  | [] => []
  | keep c :: r => c :: target r
  | cut _ :: r => target r
  | add c :: r => c :: target r

/-- The characters that are cut. -/
def cuts : List Edit → List Char
  | [] => []
  | keep _ :: r => cuts r
  | cut c :: r => c :: cuts r
  | add _ :: r => cuts r

/-- The edits before the character at `n` of the new text, with the cuts right before it. -/
def upTo (n : Nat) : List Edit → List Edit
  | [] => []
  | cut c :: r => cut c :: upTo n r
  | keep c :: r => match n with
    | 0 => []
    | m + 1 => keep c :: upTo m r
  | add c :: r => match n with
    | 0 => []
    | m + 1 => add c :: upTo m r

/-- Where the character at `n` of the new text comes from, or where it was put. -/
def origin (n : Nat) (es : List Edit) : Nat :=
  (source (upTo n es)).length

/-- Whether the character at `n` of the new text was added. -/
def isAdded (n : Nat) : List Edit → Bool
  | [] => false
  | cut _ :: r => isAdded n r
  | keep _ :: r => match n with
    | 0 => false
    | m + 1 => isAdded m r
  | add _ :: r => match n with
    | 0 => true
    | m + 1 => isAdded m r

def keeps (cs : List Char) : List Edit :=
  cs.map keep

def removes (cs : List Char) : List Edit :=
  cs.map cut

def inserts (cs : List Char) : List Edit :=
  cs.map add

@[simp] theorem source_append (es fs : List Edit) : source (es ++ fs) = source es ++ source fs := by
  fun_induction source es <;> simp_all [source]

@[simp] theorem target_append (es fs : List Edit) : target (es ++ fs) = target es ++ target fs := by
  fun_induction target es <;> simp_all [target]

@[simp] theorem cuts_append (es fs : List Edit) : cuts (es ++ fs) = cuts es ++ cuts fs := by
  fun_induction cuts es <;> simp_all [cuts]

@[simp] theorem source_keeps (cs : List Char) : source (keeps cs) = cs := by
  induction cs <;> simp_all [keeps, source]

@[simp] theorem target_keeps (cs : List Char) : target (keeps cs) = cs := by
  induction cs <;> simp_all [keeps, target]

@[simp] theorem cuts_keeps (cs : List Char) : cuts (keeps cs) = [] := by
  induction cs <;> simp_all [keeps, cuts]

@[simp] theorem source_removes (cs : List Char) : source (removes cs) = cs := by
  induction cs <;> simp_all [removes, source]

@[simp] theorem target_removes (cs : List Char) : target (removes cs) = [] := by
  induction cs <;> simp_all [removes, target]

@[simp] theorem cuts_removes (cs : List Char) : cuts (removes cs) = cs := by
  induction cs <;> simp_all [removes, cuts]

@[simp] theorem source_inserts (cs : List Char) : source (inserts cs) = [] := by
  induction cs <;> simp_all [inserts, source]

@[simp] theorem target_inserts (cs : List Char) : target (inserts cs) = cs := by
  induction cs <;> simp_all [inserts, target]

@[simp] theorem cuts_inserts (cs : List Char) : cuts (inserts cs) = [] := by
  induction cs <;> simp_all [inserts, cuts]

theorem upTo_initial (n : Nat) (es : List Edit) : upTo n es <+: es := by
  fun_induction upTo n es with
  | case1 => exact ⟨[], rfl⟩
  | case2 n c r ih => exact (List.prefix_cons_inj _).mpr ih
  | case3 c r => exact ⟨keep c :: r, rfl⟩
  | case4 c r m ih => exact (List.prefix_cons_inj _).mpr ih
  | case5 c r => exact ⟨add c :: r, rfl⟩
  | case6 c r m ih => exact (List.prefix_cons_inj _).mpr ih

theorem target_upTo (n : Nat) (es : List Edit) : target (upTo n es) = (target es).take n := by
  fun_induction upTo n es <;> simp_all [target]

/-- The old text up to the origin of a place. -/
theorem take_origin (n : Nat) (es : List Edit) :
    (source es).take (origin n es) = source (upTo n es) := by
  obtain ⟨rest, whole⟩ := upTo_initial n es
  have old := congrArg source whole
  rw [source_append] at old
  rw [origin, ← old, List.take_left]

/-- A character that was not added stands at its origin in the old text. -/
theorem getElem_origin {n : Nat} {es : List Edit} (own : isAdded n es = false)
    (within : n < (target es).length) : (source es)[origin n es]? = (target es)[n]? := by
  unfold origin
  fun_induction upTo n es with
  | case1 => simp [target] at within
  | case2 n c r ih =>
    simpa [source, target] using ih own within
  | case3 c r => simp [source, target]
  | case4 c r m ih =>
    have later : m < (target r).length := Nat.lt_of_succ_lt_succ within
    simpa [source, target] using ih own later
  | case5 c r => simp [isAdded] at own
  | case6 c r m ih =>
    have later : m < (target r).length := Nat.lt_of_succ_lt_succ within
    simpa [source, target] using ih own later

/-- No edit adds a line end. -/
def Level (es : List Edit) : Prop :=
  add '\n' ∉ es

theorem level_append {es fs : List Edit} : Level (es ++ fs) ↔ Level es ∧ Level fs := by
  simp [Level]

theorem level_keeps (cs : List Char) : Level (keeps cs) := by
  simp [Level, keeps]

theorem level_removes (cs : List Char) : Level (removes cs) := by
  simp [Level, removes]

theorem level_inserts {cs : List Char} : Level (inserts cs) ↔ '\n' ∉ cs := by
  simp [Level, inserts]

theorem feeds_source {es : List Edit} (level : Level es) :
    Text.feeds (source es) = Text.feeds (target es) + Text.feeds (cuts es) := by
  unfold Level at level
  induction es with
  | nil => rfl
  | cons e r ih =>
    rw [List.mem_cons, not_or] at level
    have rest := ih level.2
    unfold Text.feeds at rest ⊢
    cases e with
    | keep c =>
      simp only [source, target, cuts, List.count_cons]
      omega
    | cut c =>
      simp only [source, target, cuts, List.count_cons]
      omega
    | add c =>
      have other : c ≠ '\n' := fun same => level.1 (by rw [same])
      simp only [source, target, cuts, List.count_cons, beq_iff_eq, other, if_false]
      omega

/-- A place has as many line ends before it as its origin, short of those that were cut there. -/
theorem feeds_take_origin {es : List Edit} (level : Level es) (n : Nat) :
    Text.feeds ((source es).take (origin n es)) =
      Text.feeds ((target es).take n) + Text.feeds (cuts (upTo n es)) := by
  have part : Level (upTo n es) := fun member => level ((upTo_initial n es).subset member)
  rw [take_origin, ← target_upTo]
  exact feeds_source part

theorem cuts_upTo_initial (n : Nat) (es : List Edit) : cuts (upTo n es) <+: cuts es := by
  obtain ⟨rest, whole⟩ := upTo_initial n es
  have all := congrArg cuts whole
  rw [cuts_append] at all
  exact ⟨cuts rest, all⟩

/-- Edits that cut no line end leave every place on its line. -/
theorem feeds_take_origin_of_feeds {es : List Edit} (level : Level es)
    (uncut : Text.feeds (cuts es) = 0) (n : Nat) :
    Text.feeds ((source es).take (origin n es)) = Text.feeds ((target es).take n) := by
  have fewer : Text.feeds (cuts (upTo n es)) ≤ Text.feeds (cuts es) :=
    (cuts_upTo_initial n es).sublist.count_le '\n'
  rw [feeds_take_origin level]
  omega

end Edit

end MatlabOutline
