import MatlabOutline.Xml.Attribute

/-!
XML documents as trees, the text of an element, and what is seen of an element that is skipped.
-/

namespace MatlabOutline

namespace Xml

inductive Node
  | element (name attributes : List Char) (children : List Node)
  | text (raw : List Char)
  | literal (raw : List Char)

/-- An element whose end has not come yet. -/
structure Frame where
  name : List Char
  attributes : List Char
  /-- The children so far, the last one first. -/
  children : List Node

namespace Node

def isElement : Node → Bool
  | element .. => true
  | _ => false

/-- White space that references do not make. -/
def isBlankText : Node → Bool
  | text raw => raw.all isSpace
  | _ => false

end Node

/-- Adds a node to the innermost open element. -/
def addChild (child : Node) : List Frame → List Frame
  | [] => []
  | f :: r => { f with children := child :: f.children } :: r

/-- The root element, where `opened` are the open elements, the innermost first. Only white space
may stand before the root, and what stands behind it is not looked at. -/
def rootOf : List Frame → List Markup → Option Node
  | _, [] => none
  | opened, .start name attributes :: r => rootOf (⟨name, attributes, []⟩ :: opened) r
  | [], .text raw :: r => if raw.all isSpace then rootOf [] r else none
  | f :: opened, .text raw :: r => rootOf (addChild (.text raw) (f :: opened)) r
  | f :: opened, .literal raw :: r => rootOf (addChild (.literal raw) (f :: opened)) r
  | f :: opened, .stop name :: r =>
    if f.name = name then
      let node := Node.element f.name f.attributes f.children.reverse
      match opened with
      | [] => some node
      | outer => rootOf (addChild node outer) r
    else none
  | _, _ => none

/-- Reads the root element of a document. A byte order mark may stand before it. -/
def parse (text : String) : Option Node :=
  match text.toList with
  | '\ufeff' :: r => rootOf [] (markup r)
  | cs => rootOf [] (markup cs)

/-- The name of an element behind its namespace. -/
def localName (name : List Char) : List Char :=
  match name.dropWhile (· != ':') with
  | _ :: r => r
  | [] => name

/-- The digits of a number, in the given base. -/
def digits? (base : Nat) (cs : List Char) : Option Nat :=
  let value? (c : Char) : Option Nat :=
    let d := if c.isDigit then c.toNat - '0'.toNat
      else if 'a' ≤ c ∧ c ≤ 'f' then c.toNat - 'a'.toNat + 10
      else if 'A' ≤ c ∧ c ≤ 'F' then c.toNat - 'A'.toNat + 10
      else base
    if d < base then some d else none
  if cs.isEmpty then none else cs.foldlM (fun n c => (value? c).map (base * n + ·)) 0

/-- The character that a reference stands for. -/
def reference? (name : List Char) : Option Char :=
  let code (n : Nat) : Option Char :=
    if n ≠ 0 ∧ n.isValidChar then some (Char.ofNat n) else none
  match name with
  | '#' :: 'x' :: hex => (digits? 16 hex).bind code
  | '#' :: decimal => (digits? 10 decimal).bind code
  | ['l', 't'] => some '<'
  | ['g', 't'] => some '>'
  | ['a', 'm', 'p'] => some '&'
  | ['a', 'p', 'o', 's'] => some '\''
  | ['q', 'u', 'o', 't'] => some '"'
  | _ => none

/-- Replaces references. `pending` is the name of the reference read so far, reversed. -/
def unescapeFrom : Option (List Char) → List Char → Option (List Char)
  | none, [] => some []
  | some _, [] => none
  | none, c :: r =>
    if c = '&' then unescapeFrom (some []) r else (unescapeFrom none r).map (c :: ·)
  | some name, c :: r =>
    if c = '&' then none
    else if c = ';' then do
      let made ← reference? name.reverse
      let rest ← unescapeFrom none r
      return made :: rest
    else unescapeFrom (some (c :: name)) r

/-- A text with its references replaced, if it has no others than those that XML defines. -/
def unescape (raw : List Char) : Option (List Char) :=
  unescapeFrom none raw

/-- The text of one piece. -/
def pieceText : Node → Option (List Char)
  | .text raw => unescape raw
  | .literal raw => some raw
  | .element .. => none

/-- Takes the white space off the front of a text that may have references. -/
def trimFront : List Node → List Node
  | .text raw :: r => .text (raw.dropWhile isSpace) :: r
  | pieces => pieces

/-- Takes the white space off the end of the last piece. -/
def trimBack : List Node → List Node
  | [] => []
  | [.text raw] => [.text (raw.reverse.dropWhile isSpace).reverse]
  | piece :: r => piece :: trimBack r

/-- The text of an element that has no elements inside, without the white space around it. White
space that is literal or made by references is kept. -/
def textOf (children : List Node) : Option String := do
  let pieces := trimBack (trimFront (children.dropWhile Node.isBlankText))
  let texts ← pieces.mapM pieceText
  return String.ofList texts.flatten

/-- Whether the tag at the head, if there is one, binds prefixes as it may. -/
def headFits : List Node → Bool
  | .element _ attributes _ :: _ => bindingsFit attributes
  | _ => true

/-- Whether nothing is wrong with what is seen of an element that is skipped. The reader is one
piece ahead of the skipping: it sees the text at the front and the tag behind it, or the tag at the
front with the first tag inside and the next tag behind it. White space behind a tag is passed
over. -/
def skippedFits (children : List Node) : Bool :=
  match children.dropWhile Node.isBlankText with
  | .element _ attributes inner :: behind =>
    let inner := inner.dropWhile Node.isBlankText
    let isText := inner.head?.any (!·.isElement)
    let behind := if isText then behind else behind.dropWhile Node.isBlankText
    bindingsFit attributes && headFits inner && headFits behind
  | pieces =>
    (pieces.takeWhile (!·.isElement)).all (fun piece => (pieceText piece).isSome) &&
      headFits (pieces.dropWhile (!·.isElement))

end Xml

end MatlabOutline
