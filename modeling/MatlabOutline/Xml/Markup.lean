import MatlabOutline.Text.Blank

/-!
The markup of an XML document: its text cut into tags and the texts between them. Comments,
processing instructions and declarations are left out.
-/

namespace MatlabOutline

namespace Xml

inductive Markup
  | start (name attributes : List Char)
  | stop (name : List Char)
  /-- Text in which references are still to be replaced. -/
  | text (raw : List Char)
  /-- Text that stands for itself. -/
  | literal (raw : List Char)
  /-- Nothing from here on can be read. -/
  | malformed
deriving DecidableEq, Repr

def isSpace (c : Char) : Bool :=
  c == ' ' || c == '\t' || c == '\n' || c == '\r'

/-- Cuts a text at the first occurrence of `mark`, which is in neither part. -/
def cutAt (mark : List Char) : List Char → Option (List Char × List Char)
  | [] => none
  | c :: r =>
    if mark.isPrefixOf (c :: r) then some ([], (c :: r).drop mark.length)
    else (cutAt mark r).map fun (inside, rest) => (c :: inside, rest)

/-- Cuts at the end of a tag. A quoted `>` does not end it. -/
def cutTag (quote : Option Char) : List Char → Option (List Char × List Char)
  | [] => none
  | c :: r =>
    if quote = none ∧ c = '>' then some ([], r)
    else
      let quote := match quote with
        | some q => if c = q then none else some q
        | none => if c = '"' ∨ c = '\'' then some c else none
      (cutTag quote r).map fun (inside, rest) => (c :: inside, rest)

/-- What follows a document type, whose inner declarations nest to `depth`. -/
def afterDoctype (depth : Nat) : List Char → Option (List Char)
  | [] => none
  | '<' :: r => afterDoctype (depth + 1) r
  | '>' :: r => match depth with
    | 0 => some r
    | n + 1 => afterDoctype n r
  | _ :: r => afterDoctype depth r

/-- Whether a document type says something. -/
def isNamedDoctype (cs : List Char) : Bool :=
  (cs.dropWhile isSpace).head? != some '>'

/-- The tags that the inside of a tag makes: two for an element without content. -/
def tagsOf (inside : List Char) : List Markup :=
  let isEmpty := inside.getLast? == some '/'
  let inside := if isEmpty then inside.dropLast else inside
  let name := inside.takeWhile (!isSpace ·)
  let opening := Markup.start name (inside.dropWhile (!isSpace ·))
  if isEmpty then [opening, .stop name] else [opening]

/-- A closing tag may have white space after its name. -/
def closingName (inside : List Char) : List Char :=
  if inside.all isSpace then inside else (inside.reverse.dropWhile isSpace).reverse

/-- Puts markup before what the rest of a text makes. -/
def item (make : List Char → List Markup) (cut : Option (List Char × List Char)) :
    List Markup × List Char :=
  match cut with
  | some (inside, rest) => (make inside, rest)
  | none => ([.malformed], [])

def skip (_ : List Char) : List Markup :=
  []

/-- The markup that begins with `<`, and the text behind it. -/
def tag : List Char → List Markup × List Char
  | '!' :: '-' :: '-' :: r => item skip (cutAt ['-', '-', '>'] r)
  | '!' :: '[' :: 'C' :: 'D' :: 'A' :: 'T' :: 'A' :: '[' :: r =>
    item (fun raw => [.literal raw]) (cutAt [']', ']', '>'] r)
  | '!' :: r =>
    if (r.take 7).map Char.toLower = "doctype".toList ∧ isNamedDoctype (r.drop 7) then
      item skip ((afterDoctype 0 (r.drop 7)).map fun rest => ([], rest))
    else ([.malformed], [])
  | '?' :: '>' :: _ => ([.malformed], [])
  | '?' :: r => item skip (cutAt ['?', '>'] r)
  | '/' :: r => item (fun inside => [.stop (closingName inside)]) (cutAt ['>'] r)
  | r => item tagsOf (cutTag none r)

theorem length_cutAt {mark cs inside rest : List Char} (h : cutAt mark cs = some (inside, rest)) :
    rest.length ≤ cs.length := by
  induction cs generalizing inside with
  | nil => simp [cutAt] at h
  | cons c r ih =>
    simp only [cutAt] at h
    split at h
    · simp only [Option.some.injEq, Prod.mk.injEq] at h
      rw [← h.2, List.length_drop]
      omega
    · simp only [Option.map_eq_some_iff, Prod.exists, Prod.mk.injEq] at h
      obtain ⟨inner, after, found, _, rfl⟩ := h
      have := ih found
      simp only [List.length_cons]
      omega

theorem length_cutTag {quote : Option Char} {cs inside rest : List Char}
    (h : cutTag quote cs = some (inside, rest)) : rest.length ≤ cs.length := by
  induction cs generalizing quote inside with
  | nil => simp [cutTag] at h
  | cons c r ih =>
    simp only [cutTag] at h
    split at h
    · simp only [Option.some.injEq, Prod.mk.injEq] at h
      simp [← h.2]
    · simp only [Option.map_eq_some_iff, Prod.exists, Prod.mk.injEq] at h
      obtain ⟨inner, after, found, _, rfl⟩ := h
      have := ih found
      simp only [List.length_cons]
      omega

theorem length_afterDoctype {depth : Nat} {cs rest : List Char}
    (h : afterDoctype depth cs = some rest) : rest.length ≤ cs.length := by
  fun_induction afterDoctype depth cs <;> simp_all <;> omega

theorem length_item {make : List Char → List Markup} {cut : Option (List Char × List Char)}
    {n : Nat} (h : ∀ inside rest, cut = some (inside, rest) → rest.length ≤ n) :
    (item make cut).2.length ≤ n := by
  cases cut with
  | none => simp [item]
  | some found => exact h found.1 found.2 rfl

theorem length_tag (cs : List Char) : (tag cs).2.length ≤ cs.length := by
  fun_cases tag cs with
  | case1 r => exact length_item fun _ _ h => by have := length_cutAt h; simp; omega
  | case2 r => exact length_item fun _ _ h => by have := length_cutAt h; simp; omega
  | case3 r =>
    refine length_item fun _ rest h => ?_
    simp only [Option.map_eq_some_iff, Prod.mk.injEq] at h
    obtain ⟨after, found, _, rfl⟩ := h
    have := length_afterDoctype found
    simp only [List.length_drop] at this
    simp only [List.length_cons]
    omega
  | case4 => simp
  | case5 => simp
  | case6 r => exact length_item fun _ _ h => by have := length_cutAt h; simp; omega
  | case7 r => exact length_item fun _ _ h => by have := length_cutAt h; simp; omega
  | case8 => exact length_item fun _ _ h => length_cutTag h

/-- The markup of a text, in order. -/
def markup (cs : List Char) : List Markup :=
  match cs with
  | [] => []
  | '<' :: r => (tag r).1 ++ markup (tag r).2
  | c :: r => .text (c :: r.takeWhile (· != '<')) :: markup (r.dropWhile (· != '<'))
termination_by cs.length
decreasing_by
  · have := length_tag r
    simp only [List.length_cons]
    omega
  · have := (List.dropWhile_suffix (l := r) (· != '<')).length_le
    simp only [List.length_cons]
    omega

end Xml

end MatlabOutline
