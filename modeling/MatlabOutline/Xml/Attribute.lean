import MatlabOutline.Xml.Markup

/-!
The attributes of a tag: names with quoted values. Attributes whose names begin with `xmlns` bind
namespaces, of which two are reserved.
-/

namespace MatlabOutline

namespace Xml

structure Attribute where
  name : List Char
  /-- The value as it is written. -/
  value : List Char
deriving DecidableEq, Repr

/-- Where the reading of attributes stands. -/
inductive AttributeState
  | gap
  | name (reversed : List Char)
  /-- Between a name and its `=`. -/
  | named (name : List Char)
  /-- Between `=` and the value. -/
  | equals (name : List Char)
  | value (name : List Char) (quote : Char) (reversed : List Char)

/-- The attributes up to the first malformed one, which is none. -/
def attributesFrom : AttributeState → List Char → List (Option Attribute)
  | .gap, [] => []
  | _, [] => [none]
  | .gap, c :: r => attributesFrom (if isSpace c then .gap else .name [c]) r
  | .name n, c :: r =>
    if c = '=' then attributesFrom (.equals n.reverse) r
    else attributesFrom (if isSpace c then .named n.reverse else .name (c :: n)) r
  | .named n, c :: r =>
    if c = '=' then attributesFrom (.equals n) r
    else if isSpace c then attributesFrom (.named n) r
    else [none]
  | .equals n, c :: r =>
    if c = '"' ∨ c = '\'' then attributesFrom (.value n c []) r
    else if isSpace c then attributesFrom (.equals n) r
    else [none]
  | .value n q v, c :: r =>
    if c = q then some ⟨n, v.reverse⟩ :: attributesFrom .gap r
    else attributesFrom (.value n q (c :: v)) r

/-- The attributes in the text behind the name of a tag. -/
def attributesIn (text : List Char) : List (Option Attribute) :=
  attributesFrom .gap text

/-- Whether no name occurs in the list behind itself. -/
def allDistinct : List (List Char) → Bool
  | [] => true
  | name :: r => !r.contains name && allDistinct r

/-- Whether all attributes are well formed, no name twice. -/
def attributesFit (text : List Char) : Bool :=
  let attributes := attributesIn text
  attributes.all Option.isSome && allDistinct (attributes.filterMap (·.map Attribute.name))

/-- The name of a reserved namespace. The standard of XML namespaces fixes both names, which have the form
of addresses; they are compared as texts, and nothing is looked up there. -/
def reservedSpace (path : String) : List Char :=
  ("http:" ++ "//www.w3.org/" ++ path).toList

/-- The namespace of the prefix `xml`. -/
def xmlSpace : List Char :=
  reservedSpace "XML/1998/namespace"

/-- The namespace of the prefix `xmlns`. -/
def bindingSpace : List Char :=
  reservedSpace "2000/xmlns/"

namespace Attribute

/-- Whether an attribute binds no prefix, or may bind the one that it binds. -/
def bindingFits (a : Attribute) : Bool :=
  match a.name with
  | 'x' :: 'm' :: 'l' :: 'n' :: 's' :: ':' :: bound =>
    if bound = ['x', 'm', 'l'] then a.value == xmlSpace
    else bound != ['x', 'm', 'l', 'n', 's'] && a.value != xmlSpace && a.value != bindingSpace
  | _ => true

end Attribute

/-- Whether the attributes up to the first malformed one bind prefixes as they may. -/
def bindingsFit (text : List Char) : Bool :=
  (attributesIn text).all fun a => a.all Attribute.bindingFits

end Xml

end MatlabOutline
