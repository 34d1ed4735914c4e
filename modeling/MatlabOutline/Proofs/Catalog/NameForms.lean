import MatlabOutline.Proofs.Catalog.ShortNames

/-!
The two conversions of a dotted name fit together: naming a class by its folder does so at once, and the
name by which code refers to the class stays the same (`classFolderName_compatible`).
-/

namespace MatlabOutline

namespace DottedName

/-- The mark of a package folder or of a class folder. -/
def isMark (c : Char) : Bool :=
  c == '+' || c == '@'

/-- At most one mark stands in front of a segment. -/
def MarkedAtMostOnce (part : List Char) : Prop :=
  (part.takeWhile isMark).length ≤ 1

instance (part : List Char) : Decidable (MarkedAtMostOnce part) :=
  inferInstanceAs (Decidable (_ ≤ _))

theorem MarkedAtMostOnce.plain {name : List Char} (once : MarkedAtMostOnce ('@' :: name)) :
    name.head?.any isMark = false := by
  rcases name with _ | ⟨c, name⟩
  · rfl
  · cases mark : isMark c with
    | false => simpa using mark
    | true =>
      have first : isMark '@' = true := rfl
      simp [MarkedAtMostOnce, first, mark] at once

/-- Where no segment is marked twice, a class folder at the end is not dropped in its turn. -/
theorem dropClassFile_folder {outer : List (List Char)} (once : ∀ part ∈ outer, MarkedAtMostOnce part)
    (name : List Char) : dropClassFile (outer ++ ['@' :: name]) = outer ++ ['@' :: name] := by
  rcases dropClassFile_cases (outer ++ ['@' :: name]) with ⟨front, last, cut⟩ | kept
  · obtain ⟨rfl, same⟩ := List.append_inj' cut rfl
    obtain rfl : '@' :: name = last := (List.cons.inj same).1
    have plain := (once ('@' :: '@' :: name) (by simp)).plain
    simp [isMark] at plain
  · exact kept

theorem segments_classFolderName (dotted : String) :
    segments (classFolderName dotted) = dropClassFile (segments dotted) := by
  have filled : dropClassFile (segments dotted) ≠ [] := by
    rcases dropClassFile_cases (segments dotted) with ⟨outer, name, cut⟩ | kept
    · rw [cut, dropClassFile_file]
      simp
    · rw [kept]
      exact Text.splitAt_ne_nil '.' dotted.toList
  exact segments_ofSegments filled fun part inside =>
    Text.not_mem_of_mem_splitAt ((dropClassFile_isPrefix _).subset inside)

/-- Of the folders before a class folder only the names that it is joined to count for what follows. -/
theorem exists_visibleParts_class (outer : List (List Char)) (name : List Char) (parts : List (List Char))
    (inClass : Bool) : ∃ front, ∀ rest, visibleParts parts inClass (outer ++ ('@' :: name) :: rest) =
      visibleParts (front ++ [name]) true rest := by
  induction outer generalizing parts inClass with
  | nil => exact ⟨parts, fun rest => by rw [List.nil_append, visibleParts]⟩
  | cons p outer ih =>
    by_cases isPackage : p.head? = some '+'
    · obtain ⟨package, rfl⟩ := List.head?_eq_some_iff.mp isPackage
      obtain ⟨front, read⟩ := ih (parts ++ [package]) false
      exact ⟨front, fun rest => by rw [List.cons_append, visibleParts, read]⟩
    by_cases isClass : p.head? = some '@'
    · obtain ⟨cls, rfl⟩ := List.head?_eq_some_iff.mp isClass
      obtain ⟨front, read⟩ := ih (parts ++ [cls]) true
      exact ⟨front, fun rest => by rw [List.cons_append, visibleParts, read]⟩
    obtain ⟨front, read⟩ := ih [] false
    refine ⟨front, fun rest => ?_⟩
    rw [List.cons_append, visibleParts_folder ⟨isPackage, isClass⟩ (by simp), read]

/-- A class with the name of its folder adds nothing to the name. -/
theorem visibleParts_classFile {name : List Char} (plain : name.head?.any isMark = false)
    (parts : List (List Char)) : visibleParts (parts ++ [name]) true [name] = parts ++ [name] := by
  rw [visibleParts, if_pos (by simp)]
  · rintro package rfl
    simp [isMark] at plain
  · rintro cls rfl
    simp [isMark] at plain

/-- Naming a class by its folder is done with at once, and code refers to the class by the same name before and
after, if each segment has at most one mark in front. -/
theorem classFolderName_compatible {dotted : String} (once : ∀ part ∈ segments dotted, MarkedAtMostOnce part) :
    classFolderName (classFolderName dotted) = classFolderName dotted ∧
      shortest (classFolderName dotted) = shortest dotted := by
  rcases dropClassFile_cases (segments dotted) with ⟨outer, name, cut⟩ | kept
  · have folder : segments (classFolderName dotted) = outer ++ ['@' :: name] := by
      rw [segments_classFolderName, cut, dropClassFile_file]
    rw [cut, List.forall_mem_append, List.forall_mem_append, List.forall_mem_singleton] at once
    obtain ⟨⟨outside, marked⟩, -⟩ := once
    obtain ⟨front, read⟩ := exists_visibleParts_class outer name [] false
    constructor
    · rw [classFolderName, folder, dropClassFile_folder outside, ← folder, ofSegments_segments]
    · rw [shortest, shortest, folder, cut, List.append_assoc, List.singleton_append, read, read,
        visibleParts_classFile marked.plain, visibleParts]
  · have same : classFolderName dotted = dotted := by rw [classFolderName, kept, ofSegments_segments]
    rw [same]
    exact ⟨same, rfl⟩

/-- A class file in a class folder below a package, behind a plain folder and an empty segment. -/
theorem classFolderName_compatible_package :
    (∀ part ∈ segments "+old.src..+pkg.@Cls.Cls", MarkedAtMostOnce part) ∧
      classFolderName "+old.src..+pkg.@Cls.Cls" = "+old.src..+pkg.@Cls" ∧
      classFolderName "+old.src..+pkg.@Cls" = "+old.src..+pkg.@Cls" ∧
      shortest "+old.src..+pkg.@Cls" = shortest "+old.src..+pkg.@Cls.Cls" := by
  have once : ∀ part ∈ segments "+old.src..+pkg.@Cls.Cls", MarkedAtMostOnce part := by decide
  have folder : classFolderName "+old.src..+pkg.@Cls.Cls" = "+old.src..+pkg.@Cls" := by decide
  have both := classFolderName_compatible once
  rw [folder] at both
  exact ⟨once, folder, both⟩

/-- A segment with two marks is taken for a class file of the one before it. -/
example : classFolderName (classFolderName "@@C.@C.C") = "@@C" ∧ classFolderName "@@C.@C.C" = "@@C.@C" ∧
    shortest (classFolderName "@+p.+p") = "+p" ∧ shortest "@+p.+p" = "+p.p" := by decide

end DottedName

end MatlabOutline
