import MatlabOutline.Proofs.Checked.Lexing

/-!
The passes over a text with every cut and index checked: the removal of its header, the count of the
lines in it, and normalization. No check fails on a text with fewer than `2 ^ 32 - 1` line ends.
-/

namespace MatlabOutline

namespace Checked

/-- The byte at which the first line with a significant token begins, where the tokens begin at the
byte `offset` and the current line at `lineStart`. -/
def headerEnd (offset lineStart : Nat) : List Token → Option Nat
  | [] => none
  | t :: r =>
    let behind := offset + size t.text.toList
    if t.isNewline then headerEnd behind behind r
    else if t.isHeader then headerEnd behind lineStart r
    else some lineStart

/-- The text from a byte, or nothing of it if there is none. -/
def restFrom (start : Option Nat) (cs : List Char) : Option (List Char) :=
  match start with
  | none => some []
  | some n => onFrom n cs

def removeHeader (code : String) : Option String := do
  let ts ← tokenize code
  let body ← restFrom (headerEnd 0 0 ts) code.toList
  return String.ofList body

/-- The number of line ends before what is left of `code`, in 32 bits. -/
def headerLines (code : String) : Option Nat := do
  let body ← removeHeader code
  let length ← minus (size code.toList) (size body.toList)
  let header ← upTo length code.toList
  return (UInt32.ofNat (Text.feeds header)).toNat

def joinContinuedLines (code : String) : Option String :=
  (tokenize code).map fun ts => Token.concat (dropContinuations false ts)

/-- The text of the token at `index`, with an empty parameter list behind a declared name that lacks
one. -/
def signatureText (ts : List Token) (index : Nat) (t : Token) : Option (List String) :=
  if t.kind == .nameFunction then
    (slice (index + 1) ts.length ts).map fun behind =>
      if startsParameters behind then [t.text] else [t.text, "()"]
  else some [t.text]

/-- The texts of the tokens `r` of `ts`, of which the first has `index`. -/
def signatureTexts (ts : List Token) (index : Nat) : List Token → Option (List String)
  | [] => some []
  | t :: r => do
    let texts ← signatureText ts index t
    let further ← signatureTexts ts (index + 1) r
    return texts ++ further

def completeSignatures (code : String) : Option String := do
  let ts ← tokenize code
  let texts ← signatureTexts ts 0 ts
  return String.join texts

/-- The index of the first token of a line that is no white space, unless that ends the line. -/
def firstSignificant (tokens : List Token) : Option (Option Nat) :=
  match tokens.findIdx? (!·.isWhitespace) with
  | none => some none
  | some i => (tokens[i]?).map fun t => if t.isNewline then none else some i

/-- The index at which a declaration without a body begins, if the line is one. -/
def stubStart (n : Nesting) (tokens : List Token) : Option (Option Nat) :=
  (firstSignificant tokens).bind fun
    | none => some none
    | some i =>
      if n.inMethods then
        (tokens[i]?).map fun t => if t.kind == .comment || t.kind == .keyword then none else some i
      else some none

/-- Writes the declaration that begins at `first` as a function with an empty body. -/
def expandStub (line : List Token) (first : Nat) : Option String := do
  let last := (line.findIdx? endsDeclaration).getD line.length
  let declaration ← slice first last line
  let margin ← slice 0 first line
  let ending ← slice last line.length line
  let gap := if ending.head?.any Token.isRemark then " " else ""
  return Token.concat margin ++ "function " ++
    String.ofList (trimDeclaration (Token.concat declaration).toList) ++ "; end" ++ gap ++
    Token.concat ending

def expandLines (n : Nesting) : List (List Token) → Option (List String)
  | [] => some []
  | line :: r =>
    (stubStart n line).bind fun
      | some first => do
        let text ← expandStub line first
        let further ← expandLines n r
        return text :: further
      | none => (expandLines (line.foldl Nesting.step n) r).map (Token.concat line :: ·)

def expandStubs (code : String) : Option String := do
  let ts ← tokenize code
  let lines ← expandLines {} (tokenLines ts)
  return String.join lines

def normalize (code : String) : Option String := do
  let joined ← joinContinuedLines code
  let complete ← completeSignatures joined
  expandStubs complete

/-- A line begins behind the tokens before it. -/
theorem restFrom_headerEnd (before : List Char) (line ts : List Token) :
    restFrom (headerEnd (size before + size (Token.concat line).toList) (size before) ts)
        (before ++ (Token.concat line).toList ++ (Token.concat ts).toList) =
      some (Token.concat (dropHeader line ts)).toList := by
  induction ts generalizing before line with
  | nil => rfl
  | cons t ts ih =>
    rw [headerEnd, dropHeader]
    split
    · have below := ih (before ++ (Token.concat line).toList ++ t.text.toList) []
      simpa [Nat.add_assoc, size] using below
    · split
      · have further := ih before (line ++ [t])
        simpa [Nat.add_assoc] using further
      · simp [restFrom]

theorem removeHeader_eq {code : String} (few : Text.feeds code.toList < UInt32.size - 1) :
    removeHeader code = some (MatlabOutline.removeHeader code) := by
  have body := restFrom_headerEnd [] [] (MatlabOutline.tokenize code)
  simp only [Token.concat_nil, String.toList_empty, List.append_nil, List.nil_append,
    concat_tokenize, size, Nat.add_zero] at body
  simp only [removeHeader, tokenize_eq few, Option.bind_eq_bind, Option.bind_some, body]
  rw [String.ofList_toList]
  rfl

theorem headerLines_eq {code : String} (few : Text.feeds code.toList < UInt32.size - 1) :
    headerLines code = some (MatlabOutline.headerLines code) := by
  have whole := take_headerSize code
  have length := minus_size_append (code.toList.take (headerSize code))
    (MatlabOutline.removeHeader code).toList
  have header := upTo_append (code.toList.take (headerSize code))
    (MatlabOutline.removeHeader code).toList
  have part := headerLines_add_feeds code
  have small : (UInt32.ofNat (MatlabOutline.headerLines code)).toNat = MatlabOutline.headerLines code :=
    UInt32.toNat_ofNat_of_lt' (by omega)
  rw [whole] at length header
  simp only [headerLines, removeHeader_eq few, Option.bind_eq_bind, Option.bind_some, length, header,
    feeds_header, small]
  rfl

theorem signatureTexts_eq (done ts : List Token) :
    signatureTexts (done ++ ts) done.length ts = some (MatlabOutline.signatureTexts ts) := by
  induction ts generalizing done with
  | nil => rfl
  | cons t ts ih =>
    have behind : slice (done.length + 1) (done ++ t :: ts).length (done ++ t :: ts) = some ts := by
      have part := slice_append (done ++ [t]) ts []
      simpa [Nat.add_assoc, Nat.add_comm 1] using part
    have further := ih (done ++ [t])
    rw [List.append_assoc, List.singleton_append, List.length_append, List.length_singleton] at further
    rw [signatureTexts, MatlabOutline.signatureTexts, signatureText]
    simp only [further, behind, Option.bind_eq_bind, Option.bind_some, Option.map_some]
    by_cases declared : (t.kind == .nameFunction) = true
    · by_cases list : startsParameters ts = true <;> simp [declared, list]
    · simp [declared]

theorem completeSignatures_eq {code : String} (few : Text.feeds code.toList < UInt32.size - 1) :
    completeSignatures code = some (MatlabOutline.completeSignatures code) := by
  have texts := signatureTexts_eq [] (MatlabOutline.tokenize code)
  rw [List.nil_append, List.length_nil] at texts
  simp only [completeSignatures, tokenize_eq few, Option.bind_eq_bind, Option.bind_some, texts]
  rfl

/-- Where a run ends that no element breaks before. -/
theorem findIdx?_run {α : Type} (p : α → Bool) (xs : List α) :
    xs.findIdx? (!p ·) = (xs.dropWhile p).head?.map fun _ => (xs.takeWhile p).length := by
  induction xs with
  | nil => rfl
  | cons x xs ih =>
    by_cases inside : p x = true
    · simp [List.findIdx?_cons, inside, ih, Function.comp_def]
    · simp [List.findIdx?_cons, inside]

theorem getElem?_run {α : Type} (p : α → Bool) (xs : List α) :
    xs[(xs.takeWhile p).length]? = (xs.dropWhile p).head? := by
  induction xs with
  | nil => rfl
  | cons x xs ih => by_cases inside : p x = true <;> simp [inside, ih]

theorem getD_findIdx?_run {α : Type} (p : α → Bool) (xs : List α) :
    (xs.findIdx? (!p ·)).getD xs.length = (xs.takeWhile p).length := by
  induction xs with
  | nil => rfl
  | cons x xs ih =>
    by_cases inside : p x = true
    · rw [List.takeWhile_cons_of_pos inside, List.length_cons, List.length_cons, ← ih,
        List.findIdx?_cons, inside]
      cases xs.findIdx? (!p ·) <;> rfl
    · simp [List.findIdx?_cons, inside]

/-- A line is a declaration without a body exactly if its first token behind white space may begin
one. -/
theorem stubStart_eq (n : Nesting) (line : List Token) :
    stubStart n line = some (if n.inMethods && isStubLine line then
      some (line.takeWhile Token.isWhitespace).length else none) := by
  have first := getElem?_run Token.isWhitespace line
  rw [stubStart, firstSignificant, findIdx?_run, isStubLine]
  generalize line.dropWhile Token.isWhitespace = code at first ⊢
  rcases code with _ | ⟨t, code⟩
  · simp
  · rw [List.head?_cons] at first
    simp only [List.head?_cons, Option.map_some, first, Option.any_some]
    by_cases ended : t.isNewline = true
    · simp [ended]
    · by_cases methods : n.inMethods = true
      · by_cases other : t.kind = .comment ∨ t.kind = .keyword
        · rcases other with comment | keyword
          · simp [ended, methods, first, comment]
          · simp [ended, methods, first, keyword]
        · rw [not_or] at other
          simp [ended, methods, first, other]
      · simp [ended, methods]

/-- White space never ends a declaration, so that the declaration ends behind its beginning. -/
theorem takeWhile_declaration (line : List Token) :
    line.takeWhile (!endsDeclaration ·) = line.takeWhile Token.isWhitespace ++
      (line.dropWhile Token.isWhitespace).takeWhile (!endsDeclaration ·) := by
  induction line with
  | nil => rfl
  | cons t line ih =>
    by_cases blank : t.isWhitespace = true
    · have inside : endsDeclaration t = false := by
        simp_all [endsDeclaration, Token.isRemark, Token.isNewline, Token.isWhitespace]
      simp [blank, inside, ih]
    · simp [blank]

theorem expandStub_eq (line : List Token) :
    expandStub line (line.takeWhile Token.isWhitespace).length = some (MatlabOutline.expandStub line) := by
  have last : (line.findIdx? endsDeclaration).getD line.length =
      (line.takeWhile (!endsDeclaration ·)).length := by
    simpa using getD_findIdx?_run (!endsDeclaration ·) line
  have whole := List.takeWhile_append_dropWhile (p := Token.isWhitespace) (l := line)
  rw [takeWhile_declaration, List.length_append] at last
  rw [expandStub, last, MatlabOutline.expandStub]
  generalize line.takeWhile Token.isWhitespace = margin at whole ⊢
  generalize line.dropWhile Token.isWhitespace = code at whole ⊢
  subst whole
  have split := List.takeWhile_append_dropWhile (p := (!endsDeclaration ·)) (l := code)
  generalize code.takeWhile (!endsDeclaration ·) = declaration at split ⊢
  generalize code.dropWhile (!endsDeclaration ·) = ending at split ⊢
  subst split
  have middle := slice_append margin declaration ending
  have front := slice_append [] margin (declaration ++ ending)
  have back := slice_append (margin ++ declaration) ending []
  simp only [List.length_append, List.nil_append, List.append_nil, List.length_nil, Nat.zero_add,
    List.append_assoc] at middle front back
  simp only [middle, front, List.length_append, Nat.add_assoc] at back ⊢
  simp only [back, Option.bind_eq_bind, Option.bind_some]
  rfl

theorem expandLines_eq (n : Nesting) (lines : List (List Token)) :
    expandLines n lines = some (MatlabOutline.expandLines n lines) := by
  induction lines generalizing n with
  | nil => rfl
  | cons line lines ih =>
    rw [expandLines, stubStart_eq, Option.bind_some, MatlabOutline.expandLines]
    by_cases stub : (n.inMethods && isStubLine line) = true
    · rw [if_pos stub, if_pos stub]
      simp only [expandStub_eq, ih, Option.bind_eq_bind, Option.bind_some]
      rfl
    · rw [if_neg stub, if_neg stub]
      simp only [ih, Option.map_some]

theorem expandStubs_eq {code : String} (few : Text.feeds code.toList < UInt32.size - 1) :
    expandStubs code = some (MatlabOutline.expandStubs code) := by
  simp only [expandStubs, tokenize_eq few, expandLines_eq, Option.bind_eq_bind, Option.bind_some]
  rfl

/-- Normalization comes to no failing check, since no pass adds a line end. -/
theorem normalize_eq {code : String} (few : Text.feeds code.toList < UInt32.size - 1) :
    normalize code = some (MatlabOutline.normalize code) := by
  have joined : joinContinuedLines code = some (MatlabOutline.joinContinuedLines code) := by
    rw [joinContinuedLines, tokenize_eq few]
    rfl
  have fewer := Nat.lt_of_le_of_lt (feeds_joinContinuedLines_le code) few
  have complete := completeSignatures_eq fewer
  rw [← feeds_completeSignatures] at fewer
  simp only [normalize, joined, complete, expandStubs_eq fewer, Option.bind_eq_bind, Option.bind_some]
  rfl

end Checked

end MatlabOutline
