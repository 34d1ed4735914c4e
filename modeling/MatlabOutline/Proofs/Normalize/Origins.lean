import MatlabOutline.Normalize.Basic
import MatlabOutline.Proofs.Lexing.OneLine
import MatlabOutline.Proofs.Normalize.Edits
import MatlabOutline.Proofs.Normalize.StubLines
import MatlabOutline.Proofs.Text.Trimming

/-!
The passes of normalization as edits. No pass adds a line end, and joining continued lines is the
only one that cuts some; so a place of the normal form is on the line of its origin, short of the line
ends that joining cut before it (`feeds_normalOrigin`).
-/

namespace MatlabOutline

open Edit

/-- The edits of `dropContinuations`. -/
def joinEditsFrom (joined : Bool) : List Token → List Edit
  | [] => []
  | t :: r =>
    if t.isContinuation then removes t.text.toList ++ joinEditsFrom true r
    else if joined && t.isNewline then removes t.text.toList ++ joinEditsFrom false r
    else keeps t.text.toList ++ joinEditsFrom false r

def joinEdits (code : String) : List Edit :=
  joinEditsFrom false (tokenize code)

/-- The edits of `signatureTexts`. -/
def signatureEditsFrom : List Token → List Edit
  | [] => []
  | t :: r =>
    if t.kind == .nameFunction && !startsParameters r then
      keeps t.text.toList ++ inserts ['(', ')'] ++ signatureEditsFrom r
    else keeps t.text.toList ++ signatureEditsFrom r

def signatureEdits (code : String) : List Edit :=
  signatureEditsFrom (tokenize code)

/-- The edits of `expandStub`. -/
def stubLineEdits (line : List Token) : List Edit :=
  let margin := line.takeWhile Token.isWhitespace
  let code := line.dropWhile Token.isWhitespace
  let declaration := (Token.concat (code.takeWhile (!endsDeclaration ·))).toList
  let ending := code.dropWhile (!endsDeclaration ·)
  let gap := if ending.head?.any Token.isRemark then " " else ""
  keeps (Token.concat margin).toList ++ inserts "function ".toList ++
    keeps (trimDeclaration declaration) ++
    removes (declaration.drop (trimDeclaration declaration).length) ++
    inserts "; end".toList ++ inserts gap.toList ++ keeps (Token.concat ending).toList

/-- The edits of `expandLines`. -/
def stubEditsFrom (n : Nesting) : List (List Token) → List Edit
  | [] => []
  | line :: r =>
    if n.inMethods && isStubLine line then stubLineEdits line ++ stubEditsFrom n r
    else keeps (Token.concat line).toList ++ stubEditsFrom (line.foldl Nesting.step n) r

def stubEdits (code : String) : List Edit :=
  stubEditsFrom {} (tokenLines (tokenize code))

theorem source_joinEditsFrom (joined : Bool) (ts : List Token) :
    source (joinEditsFrom joined ts) = (Token.concat ts).toList := by
  fun_induction joinEditsFrom joined ts <;> simp_all [source]

theorem target_joinEditsFrom (joined : Bool) (ts : List Token) :
    target (joinEditsFrom joined ts) = (Token.concat (dropContinuations joined ts)).toList := by
  fun_induction joinEditsFrom joined ts with
  | case1 => rfl
  | case2 joined t r marker ih =>
    rw [dropContinuations, if_pos marker, target_append, target_removes, ih, List.nil_append]
  | case3 joined t r marker ends ih =>
    rw [dropContinuations, if_neg marker, if_pos ends, target_append, target_removes, ih, List.nil_append]
  | case4 joined t r marker ends ih =>
    rw [dropContinuations, if_neg marker, if_neg ends, target_append, target_keeps, ih,
      Token.concat_cons, String.toList_append]

theorem level_joinEditsFrom (joined : Bool) (ts : List Token) : Level (joinEditsFrom joined ts) := by
  fun_induction joinEditsFrom joined ts with
  | case1 => simp [Level]
  | case2 joined t r _ ih => exact level_append.mpr ⟨level_removes _, ih⟩
  | case3 joined t r _ _ ih => exact level_append.mpr ⟨level_removes _, ih⟩
  | case4 joined t r _ _ ih => exact level_append.mpr ⟨level_keeps _, ih⟩

theorem source_joinEdits (code : String) : source (joinEdits code) = code.toList := by
  rw [joinEdits, source_joinEditsFrom, concat_tokenize]

theorem target_joinEdits (code : String) : target (joinEdits code) = (joinContinuedLines code).toList :=
  target_joinEditsFrom false (tokenize code)

/-- Without a continuation marker nothing is cut. -/
theorem cuts_joinEdits_of_unbroken {code : String}
    (unbroken : ∀ t ∈ tokenize code, t.isContinuation = false) : cuts (joinEdits code) = [] := by
  unfold joinEdits
  generalize tokenize code = ts at unbroken
  induction ts with
  | nil => rfl
  | cons t r ih =>
    rw [List.forall_mem_cons] at unbroken
    simp [joinEditsFrom, unbroken.1, ih unbroken.2]

theorem source_signatureEditsFrom (ts : List Token) :
    source (signatureEditsFrom ts) = (Token.concat ts).toList := by
  fun_induction signatureEditsFrom ts <;> simp_all [source]

theorem target_signatureEditsFrom (ts : List Token) :
    target (signatureEditsFrom ts) = (String.join (signatureTexts ts)).toList := by
  fun_induction signatureEditsFrom ts with
  | case1 => rfl
  | case2 t r lacks ih =>
    rw [signatureTexts, if_pos lacks, target_append, target_append, target_keeps, target_inserts, ih]
    simp [String.join_cons]
  | case3 t r listed ih =>
    rw [signatureTexts, if_neg listed, target_append, target_keeps, ih, String.join_cons,
      String.toList_append]

/-- Completing signatures adds parentheses and cuts nothing. -/
theorem signatureEditsFrom_spec (ts : List Token) :
    Level (signatureEditsFrom ts) ∧ cuts (signatureEditsFrom ts) = [] := by
  fun_induction signatureEditsFrom ts with
  | case1 => exact ⟨by simp [Level], rfl⟩
  | case2 t r _ ih =>
    have list : Level (inserts ['(', ')']) := level_inserts.mpr (by decide)
    exact ⟨level_append.mpr ⟨level_append.mpr ⟨level_keeps _, list⟩, ih.1⟩, by simp [ih.2]⟩
  | case3 t r _ ih => exact ⟨level_append.mpr ⟨level_keeps _, ih.1⟩, by simp [ih.2]⟩

theorem source_signatureEdits (code : String) : source (signatureEdits code) = code.toList := by
  rw [signatureEdits, source_signatureEditsFrom, concat_tokenize]

theorem target_signatureEdits (code : String) :
    target (signatureEdits code) = (completeSignatures code).toList :=
  target_signatureEditsFrom (tokenize code)

theorem trimDeclaration_initial (cs : List Char) : trimDeclaration cs <+: cs :=
  (Text.trimEndBy_initial _ _).trans ((Text.trimEndBy_initial _ _).trans (Text.trimEndBy_initial _ _))

theorem trimDeclaration_append (cs : List Char) :
    trimDeclaration cs ++ cs.drop (trimDeclaration cs).length = cs := by
  obtain ⟨tail, whole⟩ := trimDeclaration_initial cs
  have rest := congrArg (List.drop (trimDeclaration cs).length) whole
  rw [List.drop_left] at rest
  rw [← rest, whole]

theorem source_stubLineEdits (line : List Token) :
    source (stubLineEdits line) = (Token.concat line).toList := by
  have margin := List.takeWhile_append_dropWhile (p := Token.isWhitespace) (l := line)
  have code := List.takeWhile_append_dropWhile (p := (!endsDeclaration ·))
    (l := line.dropWhile Token.isWhitespace)
  simp only [stubLineEdits, source_append, source_keeps, source_inserts, source_removes,
    List.append_assoc, List.nil_append]
  rw [← List.append_assoc (trimDeclaration _), trimDeclaration_append, ← String.toList_append,
    ← Token.concat_append, code, ← String.toList_append, ← Token.concat_append, margin]

theorem target_stubLineEdits (line : List Token) :
    target (stubLineEdits line) = (expandStub line).toList := by
  simp [stubLineEdits, expandStub]

theorem level_stubLineEdits (line : List Token) : Level (stubLineEdits line) := by
  simp only [stubLineEdits, level_append, level_keeps, level_removes, level_inserts, true_and, and_true]
  refine ⟨⟨by decide, by decide⟩, ?_⟩
  split <;> decide

/-- A declaration is on one line. -/
theorem feeds_declaration {code : String} {line : List Token} (inside : ∀ t ∈ line, t ∈ tokenize code) :
    Text.feeds (Token.concat
      ((line.dropWhile Token.isWhitespace).takeWhile (!endsDeclaration ·))).toList = 0 := by
  apply Token.feeds_concat_eq_zero
  intro t member
  have within : t ∈ line := (List.dropWhile_sublist _).subset ((List.takeWhile_sublist _).subset member)
  have goes : endsDeclaration t = false := by
    have all := List.all_takeWhile (p := (!endsDeclaration ·)) (l := line.dropWhile Token.isWhitespace)
    rw [List.all_eq_true] at all
    simpa using all t member
  simp only [endsDeclaration, Bool.or_eq_false_iff] at goes
  exact feeds_of_plain (inside t within) goes.2 goes.1

theorem feeds_cuts_stubLineEdits {code : String} {line : List Token}
    (inside : ∀ t ∈ line, t ∈ tokenize code) : Text.feeds (cuts (stubLineEdits line)) = 0 := by
  have declared := feeds_declaration inside
  simp only [stubLineEdits, cuts_append, cuts_keeps, cuts_inserts, cuts_removes, List.append_nil,
    List.nil_append]
  exact Nat.le_zero.mp (declared ▸ (List.drop_sublist _ _).count_le '\n')

theorem source_stubEditsFrom (n : Nesting) (lines : List (List Token)) :
    source (stubEditsFrom n lines) = (Token.concat lines.flatten).toList := by
  fun_induction stubEditsFrom n lines <;> simp_all [source, source_stubLineEdits]

theorem target_stubEditsFrom (n : Nesting) (lines : List (List Token)) :
    target (stubEditsFrom n lines) = (String.join (expandLines n lines)).toList := by
  fun_induction stubEditsFrom n lines with
  | case1 => rfl
  | case2 n line r stub ih =>
    rw [expandLines, if_pos stub, target_append, target_stubLineEdits, ih, String.join_cons,
      String.toList_append]
  | case3 n line r other ih =>
    rw [expandLines, if_neg other, target_append, target_keeps, ih, String.join_cons,
      String.toList_append]

theorem stubEditsFrom_spec {code : String} (n : Nesting) {lines : List (List Token)}
    (inside : ∀ line ∈ lines, ∀ t ∈ line, t ∈ tokenize code) :
    Level (stubEditsFrom n lines) ∧ Text.feeds (cuts (stubEditsFrom n lines)) = 0 := by
  fun_induction stubEditsFrom n lines with
  | case1 => exact ⟨by simp [Level], rfl⟩
  | case2 n line r _ ih =>
    rw [List.forall_mem_cons] at inside
    obtain ⟨level, uncut⟩ := ih inside.2
    refine ⟨level_append.mpr ⟨level_stubLineEdits line, level⟩, ?_⟩
    rw [cuts_append, Text.feeds_append, feeds_cuts_stubLineEdits inside.1, uncut]
  | case3 n line r _ ih =>
    rw [List.forall_mem_cons] at inside
    obtain ⟨level, uncut⟩ := ih inside.2
    exact ⟨level_append.mpr ⟨level_keeps _, level⟩, by simpa using uncut⟩

theorem source_stubEdits (code : String) : source (stubEdits code) = code.toList := by
  rw [stubEdits, source_stubEditsFrom, flatten_tokenLines, concat_tokenize]

theorem target_stubEdits (code : String) : target (stubEdits code) = (expandStubs code).toList :=
  target_stubEditsFrom {} (tokenLines (tokenize code))

theorem stubEdits_spec (code : String) :
    Level (stubEdits code) ∧ Text.feeds (cuts (stubEdits code)) = 0 := by
  apply stubEditsFrom_spec
  intro line listed t member
  exact mem_of_mem_tokenLines listed member

/-- Where the place `n` of the normal form stands after continued lines are joined. -/
def joinedOrigin (code : String) (n : Nat) : Nat :=
  let joined := joinContinuedLines code
  origin (origin n (stubEdits (completeSignatures joined))) (signatureEdits joined)

/-- Where the place `n` of the normal form of `code` comes from. -/
def normalOrigin (code : String) (n : Nat) : Nat :=
  origin (joinedOrigin code n) (joinEdits code)

/-- The number of line ends before the place `n` of the normal form that joining has cut. -/
def joinedLines (code : String) (n : Nat) : Nat :=
  Text.feeds (cuts (upTo (joinedOrigin code n) (joinEdits code)))

/-- Whether the character at `n` of the normal form does not come from `code`. -/
def isNew (code : String) (n : Nat) : Bool :=
  let stubs := stubEdits (completeSignatures (joinContinuedLines code))
  isAdded n stubs || isAdded (origin n stubs) (signatureEdits (joinContinuedLines code))

theorem feeds_joinedOrigin (code : String) (n : Nat) :
    Text.feeds ((joinContinuedLines code).toList.take (joinedOrigin code n)) =
      Text.feeds ((normalize code).toList.take n) := by
  have listed := signatureEditsFrom_spec (tokenize (joinContinuedLines code))
  have lists := feeds_take_origin_of_feeds listed.1 (by rw [listed.2]; rfl)
    (origin n (stubEdits (completeSignatures (joinContinuedLines code))))
  have expanded := stubEdits_spec (completeSignatures (joinContinuedLines code))
  have stubs := feeds_take_origin_of_feeds expanded.1 expanded.2 n
  rw [source_stubEdits, target_stubEdits] at stubs
  rw [← signatureEdits, source_signatureEdits, target_signatureEdits, stubs] at lists
  exact lists

/-- A place of the normal form is on the line of its origin, short of the line ends that joining cut
before it. -/
theorem feeds_normalOrigin (code : String) (n : Nat) :
    Text.feeds (code.toList.take (normalOrigin code n)) =
      Text.feeds ((normalize code).toList.take n) + joinedLines code n := by
  have level : Level (joinEdits code) := level_joinEditsFrom false (tokenize code)
  have joined := feeds_take_origin level (joinedOrigin code n)
  rw [source_joinEdits, target_joinEdits, feeds_joinedOrigin] at joined
  exact joined

theorem feeds_joinContinuedLines_le (code : String) :
    Text.feeds (joinContinuedLines code).toList ≤ Text.feeds code.toList := by
  have level : Level (joinEdits code) := level_joinEditsFrom false (tokenize code)
  have balance := feeds_source level
  rw [source_joinEdits, target_joinEdits] at balance
  omega

theorem feeds_completeSignatures (code : String) :
    Text.feeds (completeSignatures code).toList = Text.feeds code.toList := by
  have spec := signatureEditsFrom_spec (tokenize code)
  have level : Level (signatureEdits code) := spec.1
  have balance := feeds_source level
  rw [source_signatureEdits, target_signatureEdits, signatureEdits, spec.2] at balance
  exact balance.symm

theorem feeds_expandStubs (code : String) :
    Text.feeds (expandStubs code).toList = Text.feeds code.toList := by
  have spec := stubEdits_spec code
  have balance := feeds_source spec.1
  rw [source_stubEdits, target_stubEdits, spec.2] at balance
  exact balance.symm

/-- Normalization adds no line end. -/
theorem feeds_normalize_le (code : String) :
    Text.feeds (normalize code).toList ≤ Text.feeds code.toList := by
  rw [normalize, feeds_expandStubs, feeds_completeSignatures]
  exact feeds_joinContinuedLines_le code

theorem isAdded_joinEdits (code : String) (n : Nat) : isAdded n (joinEdits code) = false := by
  have none (joined : Bool) (ts : List Token) (c : Char) : add c ∉ joinEditsFrom joined ts := by
    fun_induction joinEditsFrom joined ts <;> simp_all [keeps, removes]
  have own := none false (tokenize code)
  unfold joinEdits
  generalize joinEditsFrom false (tokenize code) = es at own ⊢
  clear none
  fun_induction isAdded n es with
  | case5 c r => exact absurd (List.mem_cons_self ..) (own c)
  | _ => simp_all

/-- What was not added is the character at its origin. -/
theorem getElem_normalOrigin {code : String} {n : Nat} (own : isNew code n = false) {c : Char}
    (here : (normalize code).toList[n]? = some c) : code.toList[normalOrigin code n]? = some c := by
  have within {es : List Edit} {m : Nat} (here : (target es)[m]? = some c) : m < (target es).length := by
    rw [List.getElem?_eq_some_iff] at here
    exact here.1
  simp only [isNew, Bool.or_eq_false_iff] at own
  rw [normalize, ← target_stubEdits] at here
  have stub := (getElem_origin own.1 (within here)).trans here
  rw [source_stubEdits, ← target_signatureEdits] at stub
  have list := (getElem_origin own.2 (within stub)).trans stub
  rw [source_signatureEdits, ← target_joinEdits] at list
  have join := (getElem_origin (isAdded_joinEdits code _) (within list)).trans list
  rwa [source_joinEdits] at join

theorem joinedLines_of_unbroken {code : String}
    (unbroken : ∀ t ∈ tokenize code, t.isContinuation = false) (n : Nat) : joinedLines code n = 0 := by
  have fewer := (cuts_upTo_initial (joinedOrigin code n) (joinEdits code)).sublist.count_le '\n'
  rw [cuts_joinEdits_of_unbroken unbroken] at fewer
  exact Nat.le_zero.mp fewer

theorem dropHeader_final (line ts : List Token) : dropHeader line ts <:+ line ++ ts := by
  fun_induction dropHeader line ts with
  | case1 line => simp
  | case2 line t r _ ih => exact ih.trans ⟨line ++ [t], by simp⟩
  | case3 line t r _ _ ih => simpa using ih
  | case4 line t r => exact List.suffix_refl _

/-- The number of characters in the header of `text`. -/
def headerSize (text : String) : Nat :=
  text.toList.length - (removeHeader text).toList.length

/-- A text is its header and its body. -/
theorem take_headerSize (text : String) :
    text.toList.take (headerSize text) ++ (removeHeader text).toList = text.toList := by
  obtain ⟨header, split⟩ := dropHeader_final [] (tokenize text)
  have whole := congrArg (String.toList ∘ Token.concat) split
  simp only [Function.comp_apply, Token.concat_append, String.toList_append, List.nil_append,
    concat_tokenize] at whole
  rw [← removeHeader] at whole
  have size : headerSize text = (Token.concat header).toList.length := by
    have total := congrArg List.length whole
    rw [List.length_append] at total
    rw [headerSize]
    omega
  rw [size, ← whole, List.take_left]

theorem drop_headerSize (text : String) :
    text.toList.drop (headerSize text) = (removeHeader text).toList := by
  have whole := (take_headerSize text).trans (List.take_append_drop (headerSize text) text.toList).symm
  exact (List.append_cancel_left whole).symm

theorem feeds_header (text : String) :
    Text.feeds (text.toList.take (headerSize text)) = headerLines text := by
  have total := congrArg Text.feeds (take_headerSize text)
  rw [Text.feeds_append] at total
  rw [headerLines]
  omega

/-- The line ends of a text are those of its header and of its body. -/
theorem headerLines_add_feeds (text : String) :
    headerLines text + Text.feeds (removeHeader text).toList = Text.feeds text.toList := by
  rw [← feeds_header, ← Text.feeds_append, take_headerSize]

end MatlabOutline
