import MatlabOutline.Docstring.Basic

/-!
Which comments document which entries of a list, where a comment between two entries could belong
to either. Nearness in lines decides.
-/

namespace MatlabOutline

/-- A run of comments on successive lines. -/
structure CommentBlock where
  firstLine : Nat
  lastLine : Nat
  comments : List String
  /-- The first comment stands behind the entry before, on its last line. -/
  afterEntry : Bool := false
deriving DecidableEq, Repr

/-- The lines of an entry and the comment that stands behind it. -/
structure EntrySpan where
  firstLine : Nat
  lastLine : Nat
  trailing : Option String
deriving DecidableEq, Repr

inductive ListItem
  | comment (block : CommentBlock)
  | entry (span : EntrySpan)
deriving DecidableEq, Repr

namespace ListItem

/-- Adds a comment on lines of its own, to the block above if that ends on the line before. -/
def pushComment (items : List ListItem) (text : String) (firstLine lastLine : Nat) :
    List ListItem :=
  match items.getLast? with
  | some (.comment block) =>
    if block.lastLine + 1 = firstLine then
      items.dropLast ++
        [.comment { block with comments := block.comments ++ [text], lastLine := lastLine }]
    else items ++ [.comment { firstLine, lastLine, comments := [text] }]
  | _ => items ++ [.comment { firstLine, lastLine, comments := [text] }]

/-- Adds an entry. The comment behind it, given with its last line, begins a block that comment
lines below can join. -/
def pushEntry (items : List ListItem) (firstLine lastLine : Nat)
    (trailing : Option (String × Nat)) : List ListItem :=
  let entry := .entry { firstLine, lastLine, trailing := trailing.map Prod.fst }
  match trailing with
  | none => items ++ [entry]
  | some (text, endLine) =>
    items ++ [entry, .comment
      { firstLine := lastLine, lastLine := endLine, comments := [text], afterEntry := true }]

def block? : Option ListItem → Option CommentBlock
  | some (.comment block) => some block
  | _ => none

/-- The comments of a block that stand on lines of their own. -/
def ownLines (block : CommentBlock) : List String :=
  if block.afterEntry then block.comments.drop 1 else block.comments

/-- What the block says that ends on the line above the entry. -/
def docAbove (before : Option ListItem) (span : EntrySpan) : Option String :=
  match block? before with
  | some block =>
    if block.lastLine + 1 = span.firstLine then Docstring.ofComments (ownLines block) else none
  | none => none

/-- The first line of what the comment behind the entry says. -/
def docBehind (span : EntrySpan) : Option String := do
  let text ← span.trailing
  let doc ← Docstring.ofComments [text]
  let line ← (Text.lines doc.toList).head?
  return String.ofList line

/-- Whether an entry begins on `line`. -/
def beginsOn (line : Nat) : Option ListItem → Bool
  | some (.entry span) => span.firstLine == line
  | _ => false

/-- What the block says that begins on the line below the entry, unless that block is directly
above another entry. -/
def docBelow (span : EntrySpan) (after : List ListItem) : Option String :=
  match block? after.head? with
  | some block =>
    let start := if block.afterEntry then span.lastLine + 1 else block.firstLine
    if start = span.lastLine + 1 ∧ beginsOn (block.lastLine + 1) after[1]? = false then
      Docstring.ofComments (ownLines block)
    else none
  | none => none

/-- The docstrings of the entries in order, where `before` is the item before the list. The block
above an entry wins over the comment behind it, and that over the block below. -/
def docstringsAfter (before : Option ListItem) : List ListItem → List (Option String)
  | [] => []
  | .comment block :: r => docstringsAfter (some (.comment block)) r
  | .entry span :: r =>
    (docAbove before span <|> docBehind span <|> docBelow span r) ::
      docstringsAfter (some (.entry span)) r

def docstrings (items : List ListItem) : List (Option String) :=
  docstringsAfter none items

end ListItem

end MatlabOutline
