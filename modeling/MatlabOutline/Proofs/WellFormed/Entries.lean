import MatlabOutline.Proofs.Docstring.Lines
import MatlabOutline.Proofs.Reports.Sites

/-!
The entries of `properties` and `arguments` blocks are well formed, and so are the docstrings that the
comments around them make.
-/

namespace MatlabOutline

/-- Every token of the run has a text that its kind admits. -/
def SpelledOut (run : List Token) : Prop :=
  ∀ t ∈ run, t.kind.Admits t.text.toList

/-- The name of an entry, which may have points in it where `dotted` holds. -/
def Entry.IsName (dotted : Bool) (name : String) : Prop :=
  isDottedIdentifier name = true ∧ (dotted = false → isIdentifier name = true)

structure Entry.WellFormed (dotted : Bool) (e : Entry) : Prop where
  name : IsName dotted e.name
  spec : e.spec.WellFormed
  trailing : ∀ t, e.trailing = some t → Docstring.OnLines t.text

namespace Cursor

variable {c c' : Cursor} {t : Token}

theorem identifier_of_isName (spelled : SpelledOut c.tokens) (here : c.peek = some t)
    (name : isName t = true) : isIdentifier t.text = true := by
  have admits := spelled t (mem_of_peek here)
  rwa [show t.kind = .name by simpa [isName] using name] at admits

theorem onLines_of_remark (spelled : SpelledOut c.tokens) (here : c.peek = some t)
    (remark : t.kind = .comment) : Docstring.OnLines t.text := by
  have admits := spelled t (mem_of_peek here)
  rwa [remark] at admits

theorem dotted_dottedFrom {name : String} {ts : List Token} (passed : List Token)
    (spelled : SpelledOut ts) (before : isDottedIdentifier name = true) :
    isDottedIdentifier (dottedFrom name passed ts).1 = true := by
  fun_induction dottedFrom name passed ts with
  | case1 name passed dot part r mark ih =>
    have kind : part.kind = .name := by simp_all
    have word := spelled part (by simp)
    rw [kind] at word
    apply ih
    · exact fun t member => spelled t (by simp [member])
    · rw [isDottedIdentifier_eq] at before ⊢
      have longer := isDottedChars_append before (isDottedChars_of_identifier word)
      simpa using longer
  | case2 => exact before
  | case3 => exact before

/-- A dotted name of the run is a dotted identifier. -/
theorem dotted_dottedName? (spelled : SpelledOut c.tokens) {name : String}
    (read : c.dottedName? = some (name, c')) : isDottedIdentifier name = true := by
  unfold dottedName? at read
  split at read
  · next t c₁ taken =>
    obtain ⟨here, isName⟩ := peek_take? taken
    have word := identifier_of_isName spelled here isName
    have behind : SpelledOut c₁.rest := by
      intro u member
      apply spelled
      rw [← tokens_take? taken]
      simp [tokens, member]
    have longer := dotted_dottedFrom c₁.passed behind
      (isDottedIdentifier_of_isIdentifier word)
    rwa [Option.some.inj read] at longer
  · simp at read

theorem isName_entryName (spelled : SpelledOut c.tokens) (dotted : Bool)
    (named : c.at? isName = true) : Entry.IsName dotted (c.entryName dotted).1 := by
  obtain ⟨t, here, name⟩ : ∃ t, c.peek = some t ∧ isName t = true := by
    simpa [at?, Option.any_eq_true] using named
  have word := identifier_of_isName spelled here name
  rcases c with ⟨passed, _ | ⟨u, r⟩⟩
  · simp [peek] at here
  · obtain rfl : u = t := by simpa [peek] using here
    unfold entryName
    split
    · next dots =>
      have read : (⟨passed, u :: r⟩ : Cursor).dottedName? = some (dottedFrom u.text (u :: passed) r) := by
        simp [dottedName?, take?, name]
      rw [read]
      exact ⟨dotted_dottedName? spelled read, by simp [dots]⟩
    · simp only [take?, name, if_true]
      exact ⟨isDottedIdentifier_of_isIdentifier word, fun _ => word⟩

theorem dotted_entryType (spelled : SpelledOut c.tokens) {name : String}
    (typed : c.entryType.1 = some name) : isDottedIdentifier name = true := by
  unfold entryType at typed
  split at typed
  · next read =>
    cases typed
    exact dotted_dottedName? spelled read
  · simp at typed

theorem isTrimmed_validators (c : Cursor) : ∀ text ∈ c.validators.1, Text.IsTrimmed text := by
  intro text member
  obtain ⟨among, filled⟩ := List.mem_filter.mp member
  obtain ⟨whole, -, rfl⟩ := List.mem_map.mp among
  exact Text.isTrimmed_trim (by simpa using filled)

theorem isTrimmed_entryValidators {texts : List String} (listed : c.entryValidators.1 = some texts) :
    ∀ text ∈ texts, Text.IsTrimmed text := by
  unfold entryValidators at listed
  split at listed
  · next u behind _ =>
    cases listed
    exact isTrimmed_validators behind
  · simp at listed

theorem isTrimmed_entryDefault {text : String} (given : c.entryDefault.1 = some text) :
    Text.IsTrimmed text := by
  unfold entryDefault at given
  split at given
  · simp only [defaultText] at given
    split at given
    · simp at given
    · next filled =>
      cases given
      exact Text.isTrimmed_trim (by simpa using filled)
  · simp at given

end Cursor

namespace Reader

variable {run : List Token} {r : Reader}

theorem size_entrySize (name : String) (r : Reader) : (r.entrySize name).1 ≠ some [] := by
  unfold entrySize
  split
  · simp
  · split <;> simp

theorem wellFormed_entry (dotted : Bool) (spelled : SpelledOut run) (inside : r.cursor.tokens = run)
    (named : r.cursor.at? Cursor.isName = true) : (r.entry dotted).1.WellFormed dotted := by
  have size : ((r.withCursor (r.cursor.entryName dotted).2.skipWhitespace).entrySize
      (r.cursor.entryName dotted).1).2.cursor.tokens = run := by simpa using inside
  have extent := size_entrySize (r.cursor.entryName dotted).1
    (r.withCursor (r.cursor.entryName dotted).2.skipWhitespace)
  have called := Cursor.isName_entryName (inside ▸ spelled) dotted named
  unfold entry
  simp only
  generalize (r.withCursor (r.cursor.entryName dotted).2.skipWhitespace).entrySize
    (r.cursor.entryName dotted).1 = sized at size extent ⊢
  have value : sized.2.cursor.entryType.2.entryValidators.2.entryDefault.2.skipSeparators.tokens =
      run := by simpa using size
  refine ⟨called, ⟨extent, fun type typed => ?_, fun texts listed => ?_, fun text given => ?_, ?_⟩, ?_⟩
  · exact Cursor.dotted_entryType (size ▸ spelled) typed
  · exact Cursor.isTrimmed_entryValidators listed
  · exact Cursor.isTrimmed_entryDefault given
  · simp [Docstring.IsSaid]
  · intro t trailing
    obtain ⟨⟨u, behind⟩, taken, rfl⟩ := Option.map_eq_some_iff.mp trailing
    obtain ⟨here, remark⟩ := Cursor.peek_take? taken
    have kind : u.kind = .comment := by simp_all [Token.isRemark]
    exact Cursor.onLines_of_remark (value ▸ spelled) here kind

theorem fits_pushEntry {items : List ListItem} (fits : ∀ item ∈ items, item.Fits)
    {first last : Nat} {trailing : Option (String × Nat)}
    (behind : ∀ text line, trailing = some (text, line) → Docstring.OnLines text) :
    ∀ item ∈ ListItem.pushEntry items first last trailing, item.Fits := by
  unfold ListItem.pushEntry
  rcases trailing with _ | ⟨text, line⟩
  · simpa [ListItem.Fits, or_imp, forall_and] using fits
  · have fit := behind text line rfl
    simp_all [ListItem.Fits, or_imp]

theorem fits_pushComment {items : List ListItem} (fits : ∀ item ∈ items, item.Fits)
    (text : String) (first last : Nat) :
    ∀ item ∈ ListItem.pushComment items text first last, item.Fits := by
  have more (block : CommentBlock) (fewer : List ListItem) (fits : ∀ item ∈ fewer, item.Fits) :
      ∀ item ∈ fewer ++ [.comment block], item.Fits := by
    intro item member
    rcases List.mem_append.mp member with old | new
    · exact fits item old
    · obtain rfl := List.mem_singleton.mp new
      trivial
  unfold ListItem.pushComment
  split
  · split
    · exact more _ _ fun item member => fits item (List.dropLast_subset _ member)
    · exact more _ _ fits
  · exact more _ _ fits

/-- What reading entries has collected: items that fit and well-formed entries. -/
def Collected (dotted : Bool) (items : List ListItem) (entries : List Entry) : Prop :=
  (∀ item ∈ items, item.Fits) ∧ ∀ e ∈ entries, e.WellFormed dotted

theorem collected_entriesFrom (block : BlockKind) {dotted : Bool} {items : List ListItem}
    {entries : List Entry} (spelled : SpelledOut run) (inside : r.cursor.tokens = run)
    (before : Collected dotted items entries) :
    Collected dotted (r.entriesFrom block dotted items entries).1.1
      (r.entriesFrom block dotted items entries).1.2 := by
  have first (r : Reader) (inside : r.cursor.tokens = run) :
      (r.move Cursor.skipWhitespace).cursor.tokens = run :=
    (Cursor.tokens_skipWhitespace r.cursor).trans inside
  fun_induction entriesFrom block dotted items entries r with
  | case1 => exact before
  | case2 => exact before
  | case3 items entries r start t here _ name e trailing ih =>
    have named : start.cursor.at? Cursor.isName = true := by simp [Cursor.at?, here, name]
    have entry := wellFormed_entry dotted spelled (first r inside) named
    refine ih ((start.tokens_entry dotted).trans (first r inside)) ⟨fits_pushEntry before.1 ?_, ?_⟩
    · intro text line behind
      obtain ⟨u, told, same⟩ := Option.map_eq_some_iff.mp behind
      cases same
      exact entry.trailing u told
    · intro e' member
      rcases List.mem_append.mp member with old | new
      · exact before.2 e' old
      · exact List.mem_singleton.mp new ▸ entry
  | case4 items entries r start t here _ _ _ ih =>
    exact ih ((Cursor.tokens_advance _).trans (first r inside))
      ⟨fits_pushComment before.1 _ _ _, before.2⟩
  | case5 items entries r start t here _ _ _ _ ih =>
    exact ih ((Cursor.tokens_advance _).trans (first r inside)) before
  | case6 items entries r start t here _ _ _ _ ih =>
    exact ih ((Cursor.tokens_skipLine _).trans (first r inside)) before

/-- The entries of a block are well formed. -/
theorem wellFormed_entries (block : BlockKind) (dotted : Bool) (spelled : SpelledOut run)
    (inside : r.cursor.tokens = run) :
    ∀ e ∈ (r.entries block dotted).1, Entry.IsName dotted e.name ∧ e.spec.WellFormed := by
  have nothing : Collected dotted [] [] := ⟨by simp, by simp⟩
  obtain ⟨fits, formed⟩ := collected_entriesFrom block spelled inside nothing
  have docs := ListItem.isSaid_docstrings fits
  simp only [entries]
  generalize (r.entriesFrom block dotted [] []).1.2 = read at formed
  generalize ListItem.docstrings _ = said at docs
  intro e member
  induction read generalizing said with
  | nil => simp at member
  | cons first read ih =>
    rcases said with _ | ⟨doc, said⟩
    · simp at member
    · obtain ⟨here, later⟩ := List.forall_mem_cons.mp formed
      obtain ⟨doc_here, doc_later⟩ := List.forall_mem_cons.mp docs
      rcases List.mem_cons.mp member with rfl | further
      · exact ⟨here.name, { here.spec with doc := doc_here }⟩
      · exact ih later said doc_later further

end Reader

end MatlabOutline
