import MatlabOutline.Text.Blank

/-!
Two spellings of one name: the dotted path of an entity in a source tree, such as
`target.+pkg.@Cls`, and the name by which code refers to it, such as `pkg.Cls`.
-/

namespace MatlabOutline

namespace DottedName

def segments (dotted : String) : List (List Char) :=
  Text.splitAt '.' dotted.toList

def ofSegments (parts : List (List Char)) : String :=
  String.ofList (Text.joinWith '.' parts)

/-- Drops the last segment if it repeats the name of the class folder before it. -/
def dropClassFile (parts : List (List Char)) : List (List Char) :=
  match parts.reverse with
  | name :: folder :: outer =>
    if folder = '@' :: name then (folder :: outer).reverse else parts
  | _ => parts

/-- Names the class in a class folder by its folder: `x.@Cls.Cls` becomes `x.@Cls`. -/
def classFolderName (dotted : String) : String :=
  ofSegments (dropClassFile (segments dotted))

/-- The parts of the name that code uses, where `parts` come from the segments before and
`inClass` says that the segment before is a class folder. A plain folder starts the name over. -/
def visibleParts (parts : List (List Char)) (inClass : Bool) :
    List (List Char) → List (List Char)
  | [] => parts
  | ('+' :: package) :: r => visibleParts (parts ++ [package]) false r
  | ('@' :: cls) :: r => visibleParts (parts ++ [cls]) true r
  | [last] => if inClass && parts.getLast? == some last then parts else parts ++ [last]
  | _ :: r => visibleParts [] false r

/-- The name by which code refers to the entity at `dotted`. Package and class folders contribute
their names without their mark, and a class named after its folder appears once. -/
def shortest (dotted : String) : String :=
  ofSegments (visibleParts [] false (segments dotted))

theorem dropClassFile_file (outer : List (List Char)) (name : List Char) :
    dropClassFile (outer ++ ['@' :: name] ++ [name]) = outer ++ ['@' :: name] := by
  simp [dropClassFile]

/-- Either the last two segments are a class folder and its class file, or nothing is dropped. -/
theorem dropClassFile_cases (parts : List (List Char)) :
    (∃ outer name, parts = outer ++ ['@' :: name] ++ [name]) ∨ dropClassFile parts = parts := by
  rw [dropClassFile]
  split
  · next name folder outer back =>
    split
    · next same =>
      refine .inl ⟨outer.reverse, name, ?_⟩
      rw [← parts.reverse_reverse, back, same, List.reverse_cons, List.reverse_cons]
    · exact .inr rfl
  · exact .inr rfl

theorem dropClassFile_isPrefix (parts : List (List Char)) : dropClassFile parts <+: parts := by
  rcases dropClassFile_cases parts with ⟨outer, name, rfl⟩ | kept
  · rw [dropClassFile_file]
    exact List.prefix_append _ _
  · exact ⟨[], by rw [List.append_nil, kept]⟩

end DottedName

end MatlabOutline
