import MatlabOutline.Proofs.Blocks.Agreement
import MatlabOutline.Proofs.Lexing.LineCuts
import MatlabOutline.Proofs.Normalize.Origins

/-!
Expanding method declarations, line by line. Main statement: every line of tokens becomes one piece of the result,
with as many line ends. A line that begins directly inside a `methods` block, and with code that is no keyword, is
written as a function; any other is kept, and so is a whole text without a class (`expandStubs_lines`).
-/

namespace MatlabOutline

/-- A line that declares a method, and the function that it is written as. Behind the declaration stand white
space and semicolons, which are cut, a remark and a line end. A continuation marker belongs to the declaration. -/
inductive WritesFunction : List Token → String → Prop
  | intro {margin code : List Token} {first : Token} {remark newline : Option Token} {declaration cut : List Char}
      (white : ∀ t ∈ margin, t.isWhitespace = true)
      (start : first.kind ∉ [.whitespace, .newline, .comment, .keyword])
      (within : ∀ t ∈ code, t.isRemark = false ∧ t.isNewline = false)
      (remarks : ∀ t ∈ remark, t.isRemark = true)
      (newlines : ∀ t ∈ newline, t.isNewline = true)
      (text : (Token.concat (first :: code)).toList = declaration ++ cut)
      (trimmed : ∀ c ∈ cut, isBlank c = true ∨ c = ';')
      (solid : declaration.getLast?.any isBlank = false) :
      WritesFunction (margin ++ (first :: code ++ (remark.toList ++ newline.toList)))
        (Token.concat margin ++ "function " ++ String.ofList declaration ++ "; end" ++
          (if remark.isSome then " " else "") ++ Token.concat (remark.toList ++ newline.toList))

theorem exists_trimDeclaration (cs : List Char) :
    ∃ cut, cs = trimDeclaration cs ++ cut ∧ ∀ c ∈ cut, isBlank c = true ∨ c = ';' := by
  have parts (p : Char → Bool) (cs : List Char) : cs = Text.trimEndBy p cs ++ cs.rtakeWhile p :=
    (List.rdropWhile_append_rtakeWhile (p := p)).symm
  let body := Text.trimEnd cs
  let bare := Text.trimEndBy (· == ';') body
  refine ⟨bare.rtakeWhile isBlank ++ (body.rtakeWhile (· == ';') ++ cs.rtakeWhile isBlank), ?_, ?_⟩
  · calc
      cs = body ++ cs.rtakeWhile isBlank := parts isBlank cs
      _ = bare ++ body.rtakeWhile (· == ';') ++ cs.rtakeWhile isBlank := by rw [← parts (· == ';') body]
      _ = trimDeclaration cs ++ bare.rtakeWhile isBlank ++ body.rtakeWhile (· == ';') ++ cs.rtakeWhile isBlank := by
        rw [show trimDeclaration cs = Text.trimEndBy isBlank bare from rfl, ← parts isBlank bare]
      _ = _ := by simp
  · simp only [List.forall_mem_append]
    exact ⟨fun c member => .inl (List.mem_rtakeWhile_imp member),
      fun c member => .inr (by simpa using List.mem_rtakeWhile_imp member),
      fun c member => .inl (List.mem_rtakeWhile_imp member)⟩

/-- A line of tokens has no line end but at its end. -/
theorem nil_behind_newline {ts line : List Token} (listed : line ∈ tokenLines ts) {front back : List Token}
    {t : Token} (cut : line = front ++ t :: back) (newline : t.isNewline = true) : back = [] := by
  fun_induction tokenLines ts generalizing line front with
  | case1 => simp at listed
  | case2 u r _ ih =>
    rcases List.mem_cons.mp listed with rfl | later
    · simp_all [List.singleton_eq_append_iff]
    · exact ih later cut
  | case3 u r _ _ ih =>
    rw [List.mem_singleton] at listed
    rw [listed] at cut
    simp_all [List.singleton_eq_append_iff]
  | case4 u r going l ls lines ih =>
    rcases List.mem_cons.mp listed with rfl | later
    · rcases front with _ | ⟨v, front⟩
      · simp_all
      · rw [List.cons_append, List.cons.injEq] at cut
        exact ih (by simp [lines]) cut.2
    · exact ih (by simp [lines, later]) cut

/-- What ends a declaration: a remark, a line end, a remark and a line end, or nothing. -/
theorem ending_cases {code : String} {line front ending : List Token} (listed : line ∈ tokenLines (tokenize code))
    (cut : line = front ++ ending) (first : ending.head?.all endsDeclaration = true) :
    ∃ remark newline : Option Token, ending = remark.toList ++ newline.toList ∧
      (∀ t ∈ remark, t.isRemark = true) ∧ ∀ t ∈ newline, t.isNewline = true := by
  rcases ending with _ | ⟨e, back⟩
  · exact ⟨none, none, by simp⟩
  by_cases newline : e.isNewline = true
  · obtain rfl := nil_behind_newline listed cut newline
    exact ⟨none, some e, by simp [newline]⟩
  have remark : e.isRemark = true := by simpa [endsDeclaration, newline] using first
  rcases back with _ | ⟨u, back⟩
  · exact ⟨some e, none, by simp [remark]⟩
  have next : u.isNewline = true := by
    obtain ⟨before, after, lines⟩ := List.append_of_mem listed
    have whole := flatten_tokenLines (tokenize code)
    rw [lines, List.flatten_append, List.flatten_cons, cut] at whole
    have cut' : tokenize code = (before.flatten ++ front) ++ e :: u :: (back ++ after.flatten) := by
      rw [← whole]
      simp
    simp only [Token.isRemark, Bool.and_eq_true, beq_iff_eq] at remark
    exact newline_of_comment cut' remark.1
  have further : line = (front ++ [e]) ++ u :: back := by simpa using cut
  obtain rfl := nil_behind_newline listed further next
  exact ⟨some e, some u, by simp [remark, next]⟩

theorem writesFunction_expandStub {code : String} {line : List Token} (listed : line ∈ tokenLines (tokenize code))
    (stub : isStubLine line = true) : WritesFunction line (expandStub line) := by
  have white : ∀ t ∈ line.takeWhile Token.isWhitespace, t.isWhitespace = true := fun t => List.mem_takeWhile_imp
  have shape := List.takeWhile_append_dropWhile (p := Token.isWhitespace) (l := line)
  have solid := List.head?_dropWhile_not Token.isWhitespace line
  rw [isStubLine] at stub
  rw [expandStub]
  generalize line.takeWhile Token.isWhitespace = margin at white shape
  rcases code : line.dropWhile Token.isWhitespace with _ | ⟨first, rest⟩
  · simp [code] at stub
  rw [code] at stub shape solid
  have start : first.kind ∉ [.whitespace, .newline, .comment, .keyword] := by
    simp_all [Token.isNewline, Token.isWhitespace]
  have goes : endsDeclaration first = false := by
    simp_all [endsDeclaration, Token.isRemark, Token.isNewline]
  rw [List.takeWhile_cons_of_pos (by simp [goes]), List.dropWhile_cons_of_pos (by simp [goes])]
  have within : ∀ t ∈ rest.takeWhile (!endsDeclaration ·), t.isRemark = false ∧ t.isNewline = false := by
    intro t member
    simpa [endsDeclaration] using List.mem_takeWhile_imp member
  have split := List.takeWhile_append_dropWhile (p := (!endsDeclaration ·)) (l := rest)
  have stops := List.head?_dropWhile_not (!endsDeclaration ·) rest
  generalize rest.takeWhile (!endsDeclaration ·) = run at within split
  generalize rest.dropWhile (!endsDeclaration ·) = ending at stops split
  have cut : line = margin ++ (first :: run ++ ending) := by rw [List.cons_append, split, shape]
  have ended : ending.head?.all endsDeclaration = true := by
    rcases ending with _ | ⟨e, back⟩
    · rfl
    · simpa using stops
  obtain ⟨remark, newline, rfl, remarks, newlines⟩ := ending_cases listed (by rw [cut, ← List.append_assoc]) ended
  obtain ⟨trimmed, text, blank⟩ := exists_trimDeclaration (Token.concat (first :: run)).toList
  have gap : ((remark.toList ++ newline.toList).head?.any Token.isRemark) = remark.isSome := by
    cases remark <;> cases newline <;> simp_all [Token.isRemark, Token.isNewline]
  rw [gap, cut]
  exact .intro white start within remarks newlines text blank (Text.getLast?_trimEnd _)

/-- What a line becomes, and that it does not depend on what comes behind. -/
theorem expandLines_cut (n : Nesting) (before after : List (List Token)) (line : List Token) :
    ∃ more, expandLines n (before ++ line :: after) = expandLines n before ++
      (if ((n.afterLines before).getLastD n).inMethods && isStubLine line then expandStub line
        else Token.concat line) :: more := by
  rw [expandLines_append, expandLines]
  split
  · exact ⟨_, rfl⟩
  · exact ⟨_, rfl⟩

theorem length_expandLines (n : Nesting) (lines : List (List Token)) :
    (expandLines n lines).length = lines.length := by
  fun_induction expandLines n lines <;> simp_all

theorem feeds_expandStub {code : String} {line : List Token} (inside : ∀ t ∈ line, t ∈ tokenize code) :
    Text.feeds (expandStub line).toList = Text.feeds (Token.concat line).toList := by
  have balance := Edit.feeds_source (level_stubLineEdits line)
  rwa [source_stubLineEdits, target_stubLineEdits, feeds_cuts_stubLineEdits inside, Nat.add_zero, eq_comm] at balance

/-- Outside of classes there are no `methods` blocks. -/
def Nesting.Classless (n : Nesting) : Prop :=
  "classdef" ∉ n.blocks ∧ "methods" ∉ n.blocks

namespace Nesting.Classless

variable {n : Nesting}

theorem push (classless : n.Classless) {word : String} (cls : word ≠ "classdef") (methods : word ≠ "methods") :
    Classless { n with blocks := word :: n.blocks } := by
  simp only [Classless, List.mem_cons, not_or]
  exact ⟨⟨Ne.symm cls, classless.1⟩, Ne.symm methods, classless.2⟩

theorem step (classless : n.Classless) {t : Token} (other : t.isKeyword "classdef" = false) :
    (n.step t).Classless := by
  fun_cases Nesting.step n t with
  | case1 keyword =>
    simp only [Token.isKeyword, Token.is, keyword, Bool.true_and] at other
    fun_cases Nesting.keyword n t.text with
    | case1 => exact ⟨fun h => classless.1 (List.mem_of_mem_tail h), fun h => classless.2 (List.mem_of_mem_tail h)⟩
    | case2 _ cls => simp [cls] at other
    | case3 _ cls _ direct =>
      refine classless.push (by simpa using cls) fun methods => classless.1 (List.mem_of_mem_head? ?_)
      simpa [methods, Nesting.parent] using direct
    | case4 => exact classless
    | case5 _ cls block _ =>
      refine classless.push (by simpa using cls) fun methods => block ?_
      rw [methods]
      rfl
    | case6 => exact classless
  | case2 => exact classless
  | case3 => exact classless
  | case4 => exact classless

theorem not_inMethods (classless : n.Classless) : n.inMethods = false := by
  have inner : n.blocks.head? ≠ some "methods" := fun head => classless.2 (List.mem_of_mem_head? head)
  simp [inMethods, inner]

theorem run (classless : n.Classless) {ts : List Token} (other : ∀ t ∈ ts, t.isKeyword "classdef" = false) :
    (ts.foldl Nesting.step n).Classless := by
  induction ts generalizing n with
  | nil => exact classless
  | cons t ts ih =>
    rw [List.forall_mem_cons] at other
    exact ih (classless.step other.1) other.2

theorem settled (classless : n.Classless) {lines : List (List Token)}
    (other : ∀ t ∈ lines.flatten, t.isKeyword "classdef" = false) : Settled n lines := by
  induction lines generalizing n with
  | nil => trivial
  | cons line lines ih =>
    rw [List.flatten_cons, List.forall_mem_append] at other
    exact ⟨by rw [classless.not_inMethods, Bool.false_and], ih (classless.run other.1) other.2⟩

end Nesting.Classless

/-- The result is made of one piece for each line of tokens, with as many line ends as the line. The piece is the
line itself, unless the line begins directly inside a `methods` block with code that is no keyword; then it is the
function that the line is written as. A text without a class is kept. -/
theorem expandStubs_lines (code : String) :
    ∃ pieces, expandStubs code = String.join pieces ∧
      pieces.length = (tokenLines (tokenize code)).length ∧
      (∀ before line after, tokenLines (tokenize code) = before ++ line :: after →
        ∃ piece, pieces[before.length]? = some piece ∧
          Text.feeds piece.toList = Text.feeds (Token.concat line).toList ∧
          if ((Nesting.afterLines {} before).getLastD {}).inMethods && isStubLine line then WritesFunction line piece
          else piece = Token.concat line) ∧
      ((∀ t ∈ tokenize code, t.isKeyword "classdef" = false) → expandStubs code = code) := by
  refine ⟨expandLines {} (tokenLines (tokenize code)), rfl, length_expandLines _ _, ?_, fun other => ?_⟩
  · intro before line after lines
    have listed : line ∈ tokenLines (tokenize code) := by simp [lines]
    obtain ⟨more, pieces⟩ := expandLines_cut {} before after line
    rw [lines, pieces, ← length_expandLines {} before]
    refine ⟨_, by rw [List.getElem?_append_right (Nat.le_refl _), Nat.sub_self, List.getElem?_cons_zero], ?_⟩
    split
    · next stub =>
      rw [Bool.and_eq_true] at stub
      exact ⟨feeds_expandStub fun t => mem_of_mem_tokenLines listed, writesFunction_expandStub listed stub.2⟩
    · exact ⟨rfl, rfl⟩
  · have classless : Nesting.Classless {} := by simp [Nesting.Classless]
    exact expandStubs_of_settled (classless.settled (by rwa [flatten_tokenLines]))

end MatlabOutline
