import MatlabOutline.Proofs.Catalog.Files

/-!
Source trees that differ in the contents of one file. Every path leads to the same in both, up to that
file.
-/

namespace MatlabOutline

namespace FileTree

/-- The trees differ at most in the contents of the file at a place. -/
inductive DifferAt : List String → FileTree → FileTree → Prop
  | file (contents other : Bytes) : DifferAt [] (.file contents) (.file other)
  | folder {name : String} {way : List String} {inner inner' : FileTree}
      (before after : List (String × FileTree)) (first : ∀ e ∈ before, e.1 ≠ name)
      (below : DifferAt way inner inner') :
      DifferAt (name :: way) (.folder (before ++ (name, inner) :: after))
        (.folder (before ++ (name, inner') :: after))

variable {place way gone : List String} {t t' : FileTree}

theorem DifferAt.isFolder_eq (differ : DifferAt way t t') : t'.isFolder = t.isFolder := by
  cases differ <;> rfl

theorem DifferAt.names_eq (differ : DifferAt way t t') : t'.names = t.names := by
  cases differ <;> simp [names, entries]

theorem child?_cut {before after : List (String × FileTree)} {name : String} {inner : FileTree}
    (first : ∀ e ∈ before, e.1 ≠ name) (other : String) :
    child? (.folder (before ++ (name, inner) :: after)) other =
      if other = name then some inner else (before ++ after).lookup other := by
  simp only [child?, entries]
  induction before with
  | nil => by_cases same : other = name <;> simp [List.lookup_cons, same, beq_false_of_ne]
  | cons e before ih =>
    have here := first e List.mem_cons_self
    rw [List.cons_append, List.lookup_cons, ih fun e inside => first e (List.mem_cons_of_mem _ inside)]
    by_cases same : other = name
    · simp [same, beq_false_of_ne here.symm]
    · rw [if_neg same, if_neg same, List.cons_append, List.lookup_cons]

/-- What stands in folders that differ below differs at most where the way leads. -/
theorem DifferAt.child?_cases (differ : DifferAt way t t') (name : String) :
    way.head? ≠ some name ∧ t'.child? name = t.child? name ∨
      ∃ rest inner inner', way = name :: rest ∧ t.child? name = some inner ∧
        t'.child? name = some inner' ∧ DifferAt rest inner inner' := by
  cases differ with
  | file contents other => exact .inl ⟨by simp, rfl⟩
  | @folder first rest inner inner' before after apart below =>
    by_cases same : name = first
    · subst same
      exact .inr ⟨rest, inner, inner', rfl, by simp [child?_cut apart], by simp [child?_cut apart], below⟩
    · exact .inl ⟨by simpa using Ne.symm same, by simp [child?_cut apart, same]⟩

/-- What stands where the way `here` leads in two trees that differ at `place`. -/
def AlikeAt (place here : List String) (t t' : FileTree) : Prop :=
  t' = t ∧ ¬here <+: place ∨ ∃ way, place = here ++ way ∧ DifferAt way t t'

theorem AlikeAt.isFolder_eq {here : List String} (alike : AlikeAt place here t t') :
    t'.isFolder = t.isFolder := by
  rcases alike with ⟨rfl, -⟩ | ⟨way, -, differ⟩
  · rfl
  · exact differ.isFolder_eq

theorem AlikeAt.names_eq {here : List String} (alike : AlikeAt place here t t') :
    t'.names = t.names := by
  rcases alike with ⟨rfl, -⟩ | ⟨way, -, differ⟩
  · rfl
  · exact differ.names_eq

/-- Away from the place there are the same files. -/
theorem AlikeAt.eq_of_file {here : List String} (alike : AlikeAt place here t t') (away : here ≠ place)
    (file : t.isFolder = false) : t' = t := by
  rcases alike with ⟨same, -⟩ | ⟨way, reached, differ⟩
  · exact same
  · cases differ with
    | file => exact absurd (by simpa using reached.symm) away
    | folder => cases file

theorem AlikeAt.child? {here : List String} (alike : AlikeAt place here t t') (name : String) :
    t.child? name = none ∧ t'.child? name = none ∨ ∃ inner inner', t.child? name = some inner ∧
      t'.child? name = some inner' ∧ AlikeAt place (here ++ [name]) inner inner' := by
  have same (equal : t'.child? name = t.child? name) (off : ¬here ++ [name] <+: place) :
      t.child? name = none ∧ t'.child? name = none ∨ ∃ inner inner', t.child? name = some inner ∧
        t'.child? name = some inner' ∧ AlikeAt place (here ++ [name]) inner inner' := by
    rw [equal]
    rcases t.child? name with _ | inner
    · exact .inl ⟨rfl, rfl⟩
    · exact .inr ⟨inner, inner, rfl, rfl, .inl ⟨rfl, off⟩⟩
  rcases alike with ⟨rfl, off⟩ | ⟨way, rfl, differ⟩
  · exact same rfl fun on => off ((List.prefix_append here [name]).trans on)
  · rcases differ.child?_cases name with ⟨off, equal⟩ | ⟨rest, inner, inner', rfl, one, two, below⟩
    · refine same equal fun on => off ?_
      obtain ⟨rest, rfl⟩ := (List.prefix_append_right_inj here).mp on
      rfl
    · exact .inr ⟨inner, inner', one, two, .inr ⟨rest, by simp, below⟩⟩

/-- The folders on the way to where the names `gone`, the last first, lead in two such trees. -/
inductive AlikeAlong (place : List String) : List String → List FileTree → List FileTree → Prop
  | root : AlikeAlong place [] [] []
  | step {name : String} {gone : List String} {t t' : FileTree} {above above' : List FileTree}
      (here : AlikeAt place gone.reverse t t') (outer : AlikeAlong place gone above above') :
      AlikeAlong place (name :: gone) (t :: above) (t' :: above')

/-- A path leads to the same in both trees, up to the place. -/
theorem follow_alike {above above' : List FileTree} {here here' : FileTree}
    (along : AlikeAlong place gone above above') (alike : AlikeAt place gone.reverse here here')
    (parts : List String) :
    (∃ t t', follow above here parts = .ok t ∧ follow above' here' parts = .ok t' ∧
      AlikeAt place (Disk.placeFrom gone parts) t t') ∨
    ∃ fault, follow above here parts = .error fault ∧ follow above' here' parts = .error fault := by
  induction parts generalizing gone above above' here here' with
  | nil => exact .inl ⟨here, here', rfl, rfl, alike⟩
  | cons part r ih =>
    rw [follow_cons, follow_cons, alike.isFolder_eq, Disk.placeFrom]
    split
    · exact .inr ⟨_, rfl, rfl⟩
    split
    · exact ih along alike
    split
    · cases along with
      | root => exact ih .root alike
      | step outer more => exact ih more outer
    · rcases alike.child? part with ⟨one, two⟩ | ⟨inner, inner', one, two, below⟩
      · rw [one, two]
        exact .inr ⟨_, rfl, rfl⟩
      · rw [one, two]
        exact ih (.step alike along) (by simpa using below)

end FileTree

/-- The source trees differ at most in the contents of the file at `path`. -/
structure SourceTree.DifferIn (tree tree' : SourceTree) (path : String) : Prop where
  settings : tree'.settings = tree.settings
  base : tree'.disk.base = tree.disk.base
  root : FileTree.DifferAt (tree.disk.placeOf path) tree.disk.root tree'.disk.root

namespace SourceTree.DifferIn

variable {tree tree' : SourceTree} {path : String}

theorem partsOf_eq (differ : tree.DifferIn tree' path) (other : String) :
    tree'.disk.partsOf other = tree.disk.partsOf other := by
  simp only [Disk.partsOf, differ.base]

/-- Every path leads to the same in both, up to the one place. -/
theorem find_cases (differ : tree.DifferIn tree' path) (other : String) :
    (∃ t t', tree.disk.find other = .ok t ∧ tree'.disk.find other = .ok t' ∧
      FileTree.AlikeAt (tree.disk.placeOf path) (tree.disk.placeOf other) t t') ∨
    ∃ fault, tree.disk.find other = .error fault ∧ tree'.disk.find other = .error fault := by
  rw [Disk.find, Disk.find, differ.partsOf_eq]
  split
  · exact .inr ⟨_, rfl, rfl⟩
  · exact FileTree.follow_alike .root (.inr ⟨_, rfl, differ.root⟩) _

theorem isFolder_eq (differ : tree.DifferIn tree' path) (other : String) :
    tree'.disk.isFolder other = tree.disk.isFolder other := by
  rcases differ.find_cases other with ⟨t, t', one, two, alike⟩ | ⟨fault, one, two⟩
  · simp only [Disk.isFolder, one, two, alike.isFolder_eq]
  · simp only [Disk.isFolder, one, two]

theorem isFile_eq (differ : tree.DifferIn tree' path) (other : String) :
    tree'.disk.isFile other = tree.disk.isFile other := by
  rcases differ.find_cases other with ⟨t, t', one, two, alike⟩ | ⟨fault, one, two⟩
  · simp only [Disk.isFile, one, two, alike.isFolder_eq]
  · simp only [Disk.isFile, one, two]

/-- A file stands at the place where the trees differ, if anything. -/
theorem isFolder_self (differ : tree.DifferIn tree' path) : tree.disk.isFolder path = false := by
  rcases differ.find_cases path with ⟨t, t', one, two, alike⟩ | ⟨fault, one, two⟩
  · simp only [Disk.isFolder, one]
    rcases alike with ⟨-, off⟩ | ⟨way, here, below⟩
    · exact absurd List.prefix_rfl off
    · obtain rfl : way = [] := by simpa using here
      cases below
      rfl
  · simp only [Disk.isFolder, one]

theorem list_eq (differ : tree.DifferIn tree' path) (other : String) :
    tree'.disk.list other = tree.disk.list other := by
  rcases differ.find_cases other with ⟨t, t', one, two, alike⟩ | ⟨fault, one, two⟩
  · simp only [Disk.list, one, two, alike.isFolder_eq, alike.names_eq]
  · simp only [Disk.list, one, two]

theorem read_eq (differ : tree.DifferIn tree' path) {other : String}
    (away : tree.disk.placeOf other ≠ tree.disk.placeOf path) :
    tree'.disk.read other = tree.disk.read other := by
  rcases differ.find_cases other with ⟨t, t', one, two, alike⟩ | ⟨fault, one, two⟩
  · simp only [Disk.read, one, two]
    have folder := alike.isFolder_eq
    have file := alike.eq_of_file away
    cases t with
    | file contents => rw [file rfl]
    | folder entries =>
      cases t' with
      | file contents => cases folder
      | folder entries' => rfl
  · simp only [Disk.read, one, two]

theorem modulePath_eq (differ : tree.DifferIn tree' path) (dotted : String) :
    tree'.modulePath dotted = tree.modulePath dotted := by
  simp only [modulePath, differ.settings]

theorem fileEntity_of_placeOf (differ : tree.DifferIn tree' path) {other : String}
    (away : tree.disk.placeOf other ≠ tree.disk.placeOf path) (scope : String) :
    tree'.fileEntity other scope = tree.fileEntity other scope := by
  have load : tree.loadFile other scope = tree'.loadFile other scope := by
    simp only [loadFile, loadSource, loadApplication, differ.read_eq away, differ.settings]
  have loads := tree'.loadsAlone_loadFile other scope
  rw [← load] at loads
  exact (file_of_loadsAlone loads).1.symm

end SourceTree.DifferIn

end MatlabOutline
