import MatlabOutline.Text.Blank

/-!
Identifiers and reserved words of the MATLAB language, and the joining of names.
-/

namespace MatlabOutline

def isIdentStart (c : Char) : Bool :=
  c.isAlpha

def isIdentRest (c : Char) : Bool :=
  c.isAlphanum || c == '_'

/-- Words that are reserved everywhere in code. -/
def reservedWords : List String :=
  ["break", "case", "catch", "classdef", "continue", "else", "elseif", "end", "for", "function",
    "global", "if", "otherwise", "parfor", "persistent", "return", "spmd", "switch", "try",
    "while"]

/-- Words that open a block when they begin a line, and are ordinary names elsewhere. -/
def blockWords : List String :=
  ["arguments", "enumeration", "events", "methods", "properties"]

/-- Reserved words that open a block closed by `end`. -/
def openingWords : List String :=
  ["if", "while", "for", "parfor", "switch", "try", "spmd", "function"]

def isReserved (s : String) : Bool :=
  reservedWords.contains s

def isBlockWord (s : String) : Bool :=
  blockWords.contains s

def opensBlock (s : String) : Bool :=
  openingWords.contains s || isBlockWord s

def isIdentifierChars : List Char → Bool
  | [] => false
  | c :: r => isIdentStart c && r.all isIdentRest

/-- An ASCII letter followed by ASCII letters, digits and underscores. -/
def isIdentifier (s : String) : Bool :=
  isIdentifierChars s.toList

/-- Identifiers joined by dots, such as `matlab.mixin.Copyable`. -/
def isDottedIdentifier (s : String) : Bool :=
  (Text.splitAt '.' s.toList).all isIdentifierChars

/-- Puts a dot between a scope and a name, and none after the empty scope. -/
def joinName (scope name : String) : String :=
  if scope.isEmpty then name else scope ++ "." ++ name

theorem isIdentRest_of_isIdentStart (c : Char) (h : isIdentStart c = true) :
    isIdentRest c = true := by
  simp only [isIdentStart] at h
  simp [isIdentRest, Char.isAlphanum, h]

theorem isIdentRest_bounds (c : Char) (h : isIdentRest c = true) :
    48 ≤ c.toNat ∧ c.toNat ≤ 122 := by
  delta isIdentRest Char.isAlphanum Char.isAlpha Char.isUpper Char.isLower Char.isDigit at h
  simp only [Bool.or_eq_true, Bool.and_eq_true, decide_eq_true_eq, beq_iff_eq,
    UInt32.le_iff_toNat_le] at h
  have value : c.toNat = c.val.toNat := rfl
  rcases h with ((⟨lower, upper⟩ | ⟨lower, upper⟩) | ⟨lower, upper⟩) | rfl
  · simp at lower upper
    omega
  · simp at lower upper
    omega
  · simp at lower upper
    omega
  · decide

theorem not_isBlank_of_isIdentRest (c : Char) (h : isIdentRest c = true) : isBlank c = false := by
  have bounds := isIdentRest_bounds c h
  simp only [isBlank, Bool.or_eq_false_iff, Bool.and_eq_false_iff, decide_eq_false_iff_not,
    beq_eq_false_iff_ne]
  omega

end MatlabOutline
