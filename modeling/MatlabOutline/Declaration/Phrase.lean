import MatlabOutline.Token.Cursor

/-!
Phrases that declarations share: dotted names, the end of a declaration's line, runs of comment
lines, and blocks that are passed over.
-/

namespace MatlabOutline

namespace Cursor

/-- Extends a dotted name by each dot that a name follows. -/
def dottedFrom (name : String) (passed : List Token) : List Token → String × Cursor
  | dot :: part :: r =>
    if dot.isPunct "." && part.kind == .name then
      dottedFrom (name ++ "." ++ part.text) (part :: dot :: passed) r
    else (name, ⟨passed, dot :: part :: r⟩)
  | ts => (name, ⟨passed, ts⟩)

def isName (t : Token) : Bool :=
  t.kind == .name

/-- A dotted name such as `pkg.Base`, and the cursor behind it. -/
def dottedName? (c : Cursor) : Option (String × Cursor) :=
  match c.take? isName with
  | some (t, c') => some (dottedFrom t.text c'.passed c'.rest)
  | none => none

/-- Passes the rest of a declaration's line, and gives the comment that ends it. The cursor stays
before a statement that follows on the same line. -/
def finishLine (c : Cursor) : Option Token × Cursor :=
  match c.skipSeparators.take? Token.isRemark with
  | some (t, c') => (some t, c'.skipIf Token.isNewline)
  | none => (none, c.skipSeparators.skipIf Token.isNewline)

/-- A keyword that a later `end` must match. -/
def isOpener (t : Token) : Bool :=
  t.kind == .keyword && (openingWords.contains t.text || t.text == "arguments")

/-- Passes a block through its `end`, with `inner` blocks open inside it and `brackets` brackets.
An `end` inside brackets is an index. Tells whether the `end` was found. -/
def skipBlockFrom (inner brackets : Nat) (passed : List Token) : List Token → Bool × Cursor
  | [] => (false, ⟨passed, []⟩)
  | t :: r =>
    if t.isKeyword "end" && brackets == 0 then
      match inner with
      | 0 => (true, ⟨t :: passed, r⟩)
      | n + 1 => skipBlockFrom n brackets (t :: passed) r
    else if isOpener t then skipBlockFrom (inner + 1) brackets (t :: passed) r
    else if t.isOpenBracket then skipBlockFrom inner (brackets + 1) (t :: passed) r
    else if t.isCloseBracket then skipBlockFrom inner (brackets - 1) (t :: passed) r
    else skipBlockFrom inner brackets (t :: passed) r

/-- Passes a block whose opening keyword has been passed. The end of input ends it too. -/
def skipBlock (c : Cursor) : Bool × Cursor :=
  skipBlockFrom 0 0 c.passed c.rest

theorem remaining_dottedFrom (name : String) (passed ts : List Token) :
    (dottedFrom name passed ts).2.remaining ≤ ts.length := by
  fun_induction dottedFrom name passed ts <;> simp_all [remaining]
  omega

theorem remaining_dottedName? {c c' : Cursor} {name : String}
    (h : c.dottedName? = some (name, c')) : c'.remaining < c.remaining := by
  unfold dottedName? at h
  split at h
  · next t c₁ taken =>
    have first := remaining_take? taken
    have more := remaining_dottedFrom t.text c₁.passed c₁.rest
    rw [Option.some.injEq] at h
    rw [h] at more
    exact Nat.lt_of_le_of_lt more first
  · simp at h

theorem remaining_finishLine (c : Cursor) : c.finishLine.2.remaining ≤ c.remaining := by
  have start : c.skipSeparators.remaining ≤ c.remaining := remaining_skip _ _
  unfold finishLine
  split
  · next t c' taken =>
    have comment := remaining_take? taken
    have line := remaining_skipIf c' Token.isNewline
    simp only
    omega
  · have line := remaining_skipIf c.skipSeparators Token.isNewline
    simp only
    omega

theorem remaining_skipBlockFrom (inner brackets : Nat) (passed ts : List Token) :
    (skipBlockFrom inner brackets passed ts).2.remaining ≤ ts.length := by
  fun_induction skipBlockFrom inner brackets passed ts <;> simp_all [remaining] <;> omega

theorem remaining_skipBlock (c : Cursor) : c.skipBlock.2.remaining ≤ c.remaining :=
  remaining_skipBlockFrom _ _ _ _

/-- The texts of the comment-only lines at the cursor, up to the first line that is anything
else. Without one the cursor does not move. -/
def commentRun (c : Cursor) : List String × Cursor :=
  match _ : c.skipWhitespace.take? Token.isRemark with
  | some (t, c') =>
    let further := commentRun (c'.skipIf Token.isNewline)
    (t.text :: further.1, further.2)
  | none => ([], c)
termination_by c.remaining
decreasing_by
  rename_i taken
  have start : c.skipWhitespace.remaining ≤ c.remaining := remaining_skip _ _
  have comment := remaining_take? taken
  have line := remaining_skipIf c' Token.isNewline
  omega

theorem remaining_commentRun (c : Cursor) : c.commentRun.2.remaining ≤ c.remaining := by
  fun_induction commentRun c with
  | case1 c t c' taken further ih =>
    have start : c.skipWhitespace.remaining ≤ c.remaining := remaining_skip _ _
    have comment := remaining_take? taken
    have line := remaining_skipIf c' Token.isNewline
    simp only [further]
    omega
  | case2 => exact Nat.le_refl _

end Cursor

end MatlabOutline
