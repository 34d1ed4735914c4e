import MatlabOutline.Token.Basic

/-!
A cursor in a run of tokens: those already passed, nearest first, and the rest. No movement
changes the run, and every movement but `seek` shortens the rest or keeps it.
-/

namespace MatlabOutline

structure Cursor where
  passed : List Token
  rest : List Token
deriving DecidableEq, Repr

namespace Cursor

def ofTokens (ts : List Token) : Cursor :=
  ⟨[], ts⟩

/-- The whole run. -/
def tokens (c : Cursor) : List Token :=
  c.passed.reverse ++ c.rest

/-- The number of tokens that are left. -/
def remaining (c : Cursor) : Nat :=
  c.rest.length

def position (c : Cursor) : Nat :=
  c.passed.length

/-- Moves to the token at `n`, or to the end if there is none. -/
def seek (c : Cursor) (n : Nat) : Cursor :=
  ⟨(c.tokens.take n).reverse, c.tokens.drop n⟩

def atEnd (c : Cursor) : Bool :=
  c.rest.isEmpty

def peek (c : Cursor) : Option Token :=
  c.rest.head?

def peekAt (c : Cursor) (n : Nat) : Option Token :=
  c.rest[n]?

def previous (c : Cursor) : Option Token :=
  c.passed.head?

/-- Passes one token, if there is one. -/
def advance (c : Cursor) : Cursor :=
  match c.rest with
  | [] => c
  | t :: r => ⟨t :: c.passed, r⟩

/-- The line of the current token, or of the last one at the end. -/
def line (c : Cursor) : Nat :=
  match c.rest, c.passed with
  | t :: _, _ => t.line
  | [], t :: _ => t.line
  | [], [] => 1

/-- The current token and the cursor behind it, if `p` holds of the token. -/
def take? (c : Cursor) (p : Token → Bool) : Option (Token × Cursor) :=
  match c.rest with
  | [] => none
  | t :: r => if p t then some (t, ⟨t :: c.passed, r⟩) else none

/-- Passes the current token if `p` holds of it. -/
def skipIf (c : Cursor) (p : Token → Bool) : Cursor :=
  match c.take? p with
  | some (_, c') => c'
  | none => c

/-- Whether `p` holds of the current token. -/
def at? (c : Cursor) (p : Token → Bool) : Bool :=
  c.peek.any p

/-- Passes tokens of `p`. A continuation marker and the line end right after it are passed too,
since they join two lines; `joined` says that such a marker comes right before. -/
def skipFrom (p : Token → Bool) (joined : Bool) (passed : List Token) : List Token → Cursor
  | [] => ⟨passed, []⟩
  | t :: r =>
    if p t || joined && t.isNewline then skipFrom p false (t :: passed) r
    else if t.isContinuation then skipFrom p true (t :: passed) r
    else ⟨passed, t :: r⟩

def skip (c : Cursor) (p : Token → Bool) : Cursor :=
  skipFrom p false c.passed c.rest

/-- Passes white space within a line. -/
def skipWhitespace (c : Cursor) : Cursor :=
  c.skip Token.isWhitespace

/-- Passes white space and line ends. -/
def skipSpacing (c : Cursor) : Cursor :=
  c.skip Token.isSpacing

/-- Passes white space and the statement separators `,` and `;` within a line. -/
def skipSeparators (c : Cursor) : Cursor :=
  c.skip fun t => t.isWhitespace || t.isPunct "," || t.isPunct ";"

def skipLineFrom (passed : List Token) : List Token → Cursor
  | [] => ⟨passed, []⟩
  | t :: r => if t.isNewline then ⟨t :: passed, r⟩ else skipLineFrom (t :: passed) r

/-- Passes the rest of the line with its line end. -/
def skipLine (c : Cursor) : Cursor :=
  skipLineFrom c.passed c.rest

/-- Only white space and at most one comment are left on the line. -/
def atEndOfLine (c : Cursor) : Bool :=
  (c.skipWhitespace.skipIf Token.isRemark).peek.all Token.isNewline

theorem remaining_advance (c : Cursor) : c.advance.remaining = c.remaining - 1 := by
  unfold advance remaining
  split <;> simp_all

theorem remaining_advance_lt {c : Cursor} {t : Token} (h : c.peek = some t) :
    c.advance.remaining < c.remaining := by
  rw [remaining_advance]
  rcases c with ⟨passed, _ | ⟨u, r⟩⟩
  · simp [peek] at h
  · simp [remaining]

theorem remaining_take? {c c' : Cursor} {p : Token → Bool} {t : Token}
    (h : c.take? p = some (t, c')) : c'.remaining < c.remaining := by
  rcases c with ⟨passed, _ | ⟨u, r⟩⟩
  · simp [take?] at h
  · simp only [take?] at h
    split at h
    · cases h
      simp [remaining]
    · simp at h

theorem remaining_skipIf (c : Cursor) (p : Token → Bool) :
    (c.skipIf p).remaining ≤ c.remaining := by
  unfold skipIf
  split
  · next h => exact Nat.le_of_lt (remaining_take? h)
  · exact Nat.le_refl _

theorem remaining_skipFrom (p : Token → Bool) (joined : Bool) (passed ts : List Token) :
    (skipFrom p joined passed ts).remaining ≤ ts.length := by
  fun_induction skipFrom p joined passed ts <;> simp_all [remaining] <;> omega

theorem remaining_skip (c : Cursor) (p : Token → Bool) : (c.skip p).remaining ≤ c.remaining :=
  remaining_skipFrom _ _ _ _

theorem remaining_skipLineFrom (passed ts : List Token) :
    (skipLineFrom passed ts).remaining ≤ ts.length - 1 := by
  fun_induction skipLineFrom passed ts <;> simp_all [remaining]
  omega

theorem remaining_skipLine (c : Cursor) : c.skipLine.remaining ≤ c.remaining - 1 :=
  remaining_skipLineFrom _ _

theorem tokens_advance (c : Cursor) : c.advance.tokens = c.tokens := by
  unfold advance tokens
  split <;> simp_all

theorem tokens_skipFrom (p : Token → Bool) (joined : Bool) (passed ts : List Token) :
    (skipFrom p joined passed ts).tokens = passed.reverse ++ ts := by
  fun_induction skipFrom p joined passed ts <;> simp_all [tokens]

end Cursor

end MatlabOutline
