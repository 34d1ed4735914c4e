import MatlabOutline.Text.Blank

/-!
Paths as texts, with `/` between their parts.
-/

namespace MatlabOutline

namespace PathText

/-- Puts `part` below `base`. An absolute part replaces it. -/
def join (base part : String) : String :=
  if part.toList.head? = some '/' then part
  else if base.isEmpty || base.toList.getLast? = some '/' then base ++ part
  else base ++ "/" ++ part

/-- The parts of a path, without empty ones. -/
def parts (path : String) : List (List Char) :=
  (Text.splitAt '/' path.toList).filter (!·.isEmpty)

/-- The last part, unless it is a dot or two. -/
def fileName? (path : String) : Option (List Char) :=
  match ((parts path).filter (· != ['.'])).getLast? with
  | some name => if name = ['.', '.'] then none else some name
  | none => none

/-- Cuts a file name at its last dot, if something stands before it. -/
def cutExtension (name : List Char) : List Char × Option (List Char) :=
  match (Text.splitAt '.' name).reverse with
  | last :: before :: more =>
    let stem := Text.joinWith '.' (before :: more).reverse
    if stem.isEmpty then (name, none) else (stem, some last)
  | _ => (name, none)

def stem? (path : String) : Option String :=
  (fileName? path).map fun name => String.ofList (cutExtension name).1

def extension? (path : String) : Option String :=
  ((fileName? path).bind fun name => (cutExtension name).2).map String.ofList

/-- A part that leads nowhere else. -/
def isIdle (part : List Char) : Bool :=
  part.isEmpty || part == ['.']

/-- The path without its last part, and without idle parts at the end of what is left. -/
def parent (path : String) : String :=
  match Text.splitAt '/' path.toList with
  | [] => ""
  | first :: r =>
    match r.reverse.dropWhile isIdle with
    | [] => ""
    | _ :: outer =>
      let above := Text.joinWith '/' (first :: (outer.dropWhile isIdle).reverse)
      if above.isEmpty && path.toList.head? = some '/' then "/" else String.ofList above

/-- One spelling for all that differ only in repeated `/` and in parts that stay where they are. -/
def normal (path : String) : String :=
  let plain := Text.joinWith '/' ((parts path).filter (· != ['.']))
  match path.toList, (parts path).head? with
  | '/' :: _, _ => String.ofList ('/' :: plain)
  | _, some ['.'] => String.ofList ('.' :: '/' :: plain)
  | _, _ => String.ofList plain

end PathText

end MatlabOutline
