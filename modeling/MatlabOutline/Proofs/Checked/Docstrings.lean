import MatlabOutline.Proofs.Checked.Passes

/-!
Docstrings with every cut, index and line number checked. No check fails for any comments
(`Checked.ofComments_eq`), nor for the items of a list whose blocks are not empty and end above the last
line that has a number (`Checked.docstrings_eq`).
-/

namespace MatlabOutline

namespace Checked

open Docstring

/-- The number of bytes before the text of a line. -/
def indentOf (line : List Char) : Option Nat :=
  minus (size line) (size (line.dropWhile isIndent))

def margin (lines : List (List Char)) : Option Nat :=
  ((lines.filter (!Text.allBlank ·)).mapM indentOf).map fun widths => widths.min?.getD 0

/-- A line from the byte at `width`. -/
def dedent (width : Nat) (line : List Char) : Option (List Char) :=
  if Text.allBlank line then some [] else (onFrom width line).map Text.trimEnd

/-- The index of the last line that is not empty. -/
def lastFilled (lines : List (List Char)) : Option Nat :=
  (lines.reverse.findIdx? (!·.isEmpty)).map fun i => lines.length - 1 - i

/-- The lines from the first to the last that is not empty. -/
def dropOuterBlank (lines : List (List Char)) : Option (List (List Char)) :=
  match lines.findIdx? (!·.isEmpty), lastFilled lines with
  | some first, some last => slice first (last + 1) lines
  | _, _ => some []

def clean (comments : List String) : Option String := do
  let lines := comments.flatMap fun comment => commentLines comment.toList
  let width ← margin lines
  let dedented ← lines.mapM (dedent width)
  let said ← dropOuterBlank dedented
  return String.ofList (Text.joinWith '\n' said)

def ofComments (comments : List String) : Option (Option String) :=
  (clean comments).map ofText

/-- The comments on their own lines of a block above an entry. -/
def ownAbove (block : CommentBlock) : Option (List String) :=
  let skip := if block.afterEntry then 1 else 0
  slice (min skip block.comments.length) block.comments.length block.comments

def docAbove (before : Option ListItem) (span : EntrySpan) : Option (Option String) :=
  match ListItem.block? before with
  | some block => do
    let below ← plus block.lastLine 1
    if below = span.firstLine then (ownAbove block).bind ofComments else some none
  | none => some none

def docBehind (span : EntrySpan) : Option (Option String) :=
  match span.trailing with
  | some text =>
    (ofComments [text]).map fun doc =>
      doc.bind fun said => (Text.lines said.toList).head?.map String.ofList
  | none => some none

/-- The comments on their own lines of a block below an entry. -/
def ownBelow (block : CommentBlock) : Option (List String) :=
  if block.afterEntry then slice 1 block.comments.length block.comments else some block.comments

/-- Whether the item behind a block is an entry on the line below it. -/
def beginsBelow (block : CommentBlock) : Option ListItem → Option Bool
  | some (.entry span) => (plus block.lastLine 1).map (span.firstLine == ·)
  | _ => some false

/-- The line on which the own lines of a block below an entry begin. -/
def startBelow (span : EntrySpan) (block : CommentBlock) : Option Nat :=
  if block.afterEntry then plus span.lastLine 1 else some block.firstLine

def docBelow (span : EntrySpan) (after : List ListItem) : Option (Option String) :=
  match ListItem.block? after.head? with
  | some block => do
    let comments ← ownBelow block
    let start ← startBelow span block
    let aboveEntry ← beginsBelow block after[1]?
    let below ← plus span.lastLine 1
    if start = below ∧ aboveEntry = false then ofComments comments else some none
  | none => some none

def docstringsAfter (before : Option ListItem) : List ListItem → Option (List (Option String))
  | [] => some []
  | .comment block :: r => docstringsAfter (some (.comment block)) r
  | .entry span :: r => do
    let above ← docAbove before span
    let behind ← docBehind span
    let below ← docBelow span r
    let further ← docstringsAfter (some (.entry span)) r
    return (above <|> behind <|> below) :: further

def docstrings (items : List ListItem) : Option (List (Option String)) :=
  docstringsAfter none items

theorem mapM_eq_map {α β : Type} {f : α → Option β} {g : α → β} {xs : List α}
    (total : ∀ x ∈ xs, f x = some (g x)) : xs.mapM f = some (xs.map g) := by
  induction xs with
  | nil => rfl
  | cons x xs ih =>
    obtain ⟨first, others⟩ := List.forall_mem_cons.mp total
    rw [List.mapM_cons, first, ih others]
    rfl

/-- Spaces and tabs take one byte each. -/
theorem size_of_isIndent {cs : List Char} (blank : ∀ c ∈ cs, isIndent c = true) : size cs = cs.length := by
  induction cs with
  | nil => rfl
  | cons c cs ih =>
    obtain ⟨first, others⟩ := List.forall_mem_cons.mp blank
    have single : c.utf8Size = 1 := by
      rcases (by simpa [isIndent] using first : c = ' ' ∨ c = '\t') with rfl | rfl <;> rfl
    rw [size, single, ih others, List.length_cons, Nat.add_comm]

theorem isIndent_of_mem_takeWhile {line : List Char} :
    ∀ c ∈ line.takeWhile isIndent, isIndent c = true :=
  List.all_eq_true.mp List.all_takeWhile

theorem indentOf_eq (line : List Char) : indentOf line = some (Docstring.indentOf line) := by
  have before := minus_size_append (line.takeWhile isIndent) (line.dropWhile isIndent)
  rwa [List.takeWhile_append_dropWhile, size_of_isIndent isIndent_of_mem_takeWhile] at before

theorem margin_eq (lines : List (List Char)) : margin lines = some (Docstring.margin lines) := by
  rw [margin, mapM_eq_map fun line _ => indentOf_eq line]
  rfl

theorem dedent_eq {width : Nat} {line : List Char}
    (fits : Text.allBlank line = false → width ≤ Docstring.indentOf line) :
    dedent width line = some (Docstring.dedent width line) := by
  unfold dedent Docstring.dedent
  split
  · rfl
  · next filled =>
    have short := fits (by simpa using filled)
    have indented : ∀ c ∈ line.take width, isIndent c = true := by
      intro c member
      have initial : line.take width <+: line.takeWhile isIndent :=
        List.prefix_of_prefix_length_le (List.take_prefix _ _) (List.takeWhile_prefix _)
          (by rw [List.length_take]; exact Nat.le_trans (Nat.min_le_left _ _) short)
      exact isIndent_of_mem_takeWhile c (initial.subset member)
    have long : width ≤ line.length :=
      Nat.le_trans short (List.takeWhile_sublist isIndent).length_le
    have behind := onFrom_append (line.take width) (line.drop width)
    rw [List.take_append_drop, size_of_isIndent indented, List.length_take, Nat.min_eq_left long] at behind
    rw [behind]
    rfl

/-- The lines from the first that is not empty, with those from the last taken apart. -/
theorem exists_said {line : List Char} (filled : line.isEmpty = false) (before inner : List (List Char)) :
    ∃ said behind : List (List Char), line :: inner = said ++ behind ∧ said ≠ [] ∧
      ((line :: inner).reverse.dropWhile List.isEmpty).reverse = said ∧
      (before ++ line :: inner).reverse.findIdx? (!·.isEmpty) = some behind.length := by
  have parts := List.takeWhile_append_dropWhile (p := List.isEmpty) (l := (line :: inner).reverse)
  have found := findIdx?_run List.isEmpty (line :: inner).reverse
  have some_filled : (line :: inner).reverse.dropWhile List.isEmpty ≠ [] := by
    intro none
    have empty := List.dropWhile_eq_nil_iff.mp none line (by simp)
    rw [filled] at empty
    exact Bool.false_ne_true empty
  generalize (line :: inner).reverse.takeWhile List.isEmpty = behind at parts found
  generalize (line :: inner).reverse.dropWhile List.isEmpty = said at parts found some_filled ⊢
  refine ⟨said.reverse, behind.reverse, ?_, by simpa using some_filled, rfl, ?_⟩
  · rw [← List.reverse_append, parts, List.reverse_reverse]
  · obtain ⟨last, more, rfl⟩ := List.exists_cons_of_ne_nil some_filled
    rw [List.reverse_append, List.findIdx?_append, found, behind.length_reverse]
    rfl

theorem dropOuterBlank_eq (lines : List (List Char)) :
    dropOuterBlank lines = some (Docstring.dropOuterBlank lines) := by
  have whole := List.takeWhile_append_dropWhile (p := List.isEmpty) (l := lines)
  have start := List.head?_dropWhile_not List.isEmpty lines
  rw [dropOuterBlank, Docstring.dropOuterBlank, findIdx?_run, lastFilled]
  generalize lines.takeWhile List.isEmpty = before at whole ⊢
  generalize lines.dropWhile List.isEmpty = inner at whole start ⊢
  rcases inner with _ | ⟨line, inner⟩
  · rfl
  · obtain ⟨said, behind, cut, some_said, final, found⟩ :=
      exists_said (by simpa using start) before inner
    have positive := List.length_pos_iff.mpr some_said
    rw [final, ← whole, found, cut, ← List.append_assoc]
    have last : (before ++ said ++ behind).length - 1 - behind.length + 1 =
        before.length + said.length := by
      simp only [List.length_append]
      omega
    have part := slice_append before said behind
    rw [← last] at part
    rw [← cut]
    exact part

/-- Comments are cleaned without a failing check. -/
theorem ofComments_eq (comments : List String) :
    ofComments comments = some (Docstring.ofComments comments) := by
  generalize lined : (comments.flatMap fun comment => commentLines comment.toList) = lines
  have dedented : lines.mapM (dedent (Docstring.margin lines)) =
      some (lines.map (Docstring.dedent (Docstring.margin lines))) :=
    mapM_eq_map fun line member => dedent_eq (margin_le member)
  simp only [ofComments, clean, lined, margin_eq, dedented, dropOuterBlank_eq, Option.bind_eq_bind,
    Option.bind_some]
  rw [Docstring.ofComments, Docstring.clean, linesOf, lined]
  rfl

def lastLine : ListItem → Nat
  | .comment block => block.lastLine
  | .entry span => span.lastLine

/-- A block that begins behind an entry has a comment, and the line below an item has a number. -/
structure Fits (item : ListItem) : Prop where
  filled : ∀ block, item = .comment block → block.afterEntry = true → block.comments ≠ []
  below : lastLine item + 1 < UInt32.size

theorem ownAbove_eq (block : CommentBlock) : ownAbove block = some (ListItem.ownLines block) := by
  unfold ownAbove ListItem.ownLines
  split
  · rcases block.comments with _ | ⟨first, comments⟩
    · rfl
    · have behind := slice_append [first] comments []
      simpa [Nat.add_comm 1] using behind
  · have whole := slice_append [] block.comments []
    simpa using whole

theorem ownBelow_eq {block : CommentBlock} (fits : Fits (.comment block)) :
    ownBelow block = some (ListItem.ownLines block) := by
  unfold ownBelow ListItem.ownLines
  split
  · next after =>
    obtain ⟨first, comments, listed⟩ := List.exists_cons_of_ne_nil (fits.filled block rfl after)
    have behind := slice_append [first] comments []
    rw [listed]
    simpa [Nat.add_comm 1] using behind
  · rfl

theorem docAbove_eq {before : Option ListItem} (fits : ∀ item ∈ before, Fits item) (span : EntrySpan) :
    docAbove before span = some (ListItem.docAbove before span) := by
  unfold docAbove ListItem.docAbove
  rcases before with _ | item
  · rfl
  · rcases item with block | other
    · have below := plus_eq (fits _ rfl).below
      simp only [ListItem.block?, lastLine] at below ⊢
      simp only [below, ownAbove_eq, ofComments_eq, Option.bind_eq_bind, Option.bind_some]
      exact (apply_ite some _ _ _).symm
    · rfl

theorem docBehind_eq (span : EntrySpan) : docBehind span = some (ListItem.docBehind span) := by
  unfold docBehind ListItem.docBehind
  rcases span.trailing with _ | text
  · rfl
  · simp only [ofComments_eq, Option.bind_eq_bind, Option.bind_some, Option.map_eq_bind]
    rfl

theorem beginsBelow_eq {block : CommentBlock} (fits : Fits (.comment block)) (next : Option ListItem) :
    beginsBelow block next = some (ListItem.beginsOn (block.lastLine + 1) next) := by
  rcases next with _ | other | span
  · rfl
  · rfl
  · have below : plus block.lastLine 1 = some (block.lastLine + 1) := plus_eq fits.below
    rw [beginsBelow, below]
    rfl

theorem docBelow_eq {span : EntrySpan} (own : Fits (.entry span)) {after : List ListItem}
    (fits : ∀ item ∈ after, Fits item) :
    docBelow span after = some (ListItem.docBelow span after) := by
  have below : plus span.lastLine 1 = some (span.lastLine + 1) := plus_eq own.below
  unfold docBelow ListItem.docBelow
  rcases after with _ | ⟨item, after⟩
  · rfl
  · rcases item with block | other
    · have first := fits _ List.mem_cons_self
      have start : startBelow span block =
          some (if block.afterEntry then span.lastLine + 1 else block.firstLine) := by
        rw [startBelow, below]
        exact (apply_ite some _ _ _).symm
      simp only [List.head?_cons, ListItem.block?, ownBelow_eq first, start, beginsBelow_eq first, below,
        ofComments_eq, Option.bind_eq_bind, Option.bind_some]
      exact (apply_ite some _ _ _).symm
    · rfl

theorem docstringsAfter_eq {before : Option ListItem} (above : ∀ item ∈ before, Fits item)
    {items : List ListItem} (fits : ∀ item ∈ items, Fits item) :
    docstringsAfter before items = some (ListItem.docstringsAfter before items) := by
  induction items generalizing before with
  | nil => rfl
  | cons item items ih =>
    obtain ⟨first, others⟩ := List.forall_mem_cons.mp fits
    have further : docstringsAfter (some item) items =
        some (ListItem.docstringsAfter (some item) items) := by
      refine ih ?_ others
      rintro _ ⟨⟩
      exact first
    rcases item with block | span
    · exact further
    · rw [docstringsAfter, ListItem.docstringsAfter]
      simp only [docAbove_eq above, docBehind_eq, docBelow_eq first others, further,
        Option.bind_eq_bind, Option.bind_some]
      rfl

theorem docstrings_eq {items : List ListItem} (fits : ∀ item ∈ items, Fits item) :
    docstrings items = some (ListItem.docstrings items) :=
  docstringsAfter_eq (by simp) fits

end Checked

end MatlabOutline
