import MatlabOutline.Proofs.LineEndings.Functions

/-!
The `arguments` blocks of a function, and what becomes of its parameters and outputs. Main statement: no parameter
and no output is lost, doubled or moved, whatever blocks there are (`function_specifies_arguments`).
-/

namespace MatlabOutline

namespace Arguments

/-- Arguments that have been declared as `ps`, after the entries `es` have told of some of them. -/
structure Specified (args : Arguments) (ps : List String) (es : List Entry) : Prop where
  /-- Declared arguments keep their places, and others come behind them when they are first told of. -/
  names : args.names = ps ++ ((es.map Entry.name).filter (· ∉ ps)).eraseDups
  /-- What the last entry says of a name holds of the first argument with it. -/
  told : ∀ before e after, es = before ++ e :: after → e.name ∉ after.map Entry.name →
    args.get? e.name = some { name := e.name, spec := e.spec }
  /-- Nothing is said of an argument of which no entry tells, or that has the name of an argument before it. -/
  untold : ∀ front a back, args = front ++ a :: back →
    (a.name ∉ es.map Entry.name ∨ a.name ∈ Arguments.names front) → a = { name := a.name }

variable {args : Arguments} {name : String} {f : ValueSpec → ValueSpec}

theorem names_ofNames (ps : List String) : (ofNames ps).names = ps := by
  simp [ofNames, names, Function.comp_def]

theorem names_modify :
    (modify name f args).names = if name ∈ args.names then args.names else args.names ++ [name] := by
  induction args with
  | nil => simp [modify, names]
  | cons a r ih =>
    rw [modify]
    by_cases same : a.name = name
    · simp [names, same]
    · simp only [names, same, if_false, List.map_cons, List.mem_cons, Ne.symm same, false_or] at ih ⊢
      rw [ih]
      by_cases later : name ∈ r.map Argument.name <;> simp only [later, if_true, if_false, List.cons_append]

theorem get?_specify (spec : ValueSpec) (other : String) :
    (args.specify name spec).get? other = if name = other then some { name, spec } else args.get? other := by
  rw [specify]
  induction args with
  | nil => by_cases same : name = other <;> simp [modify, get?, same]
  | cons a r ih =>
    rw [modify]
    simp only [get?] at ih ⊢
    by_cases here : a.name = name
    · by_cases same : name = other <;> simp [here, same]
    · simp only [here, if_false, List.find?_cons, ih]
      obtain rfl | away := eq_or_ne name other
      · have apart : (a.name == name) = false := by simpa using here
        simp [apart]
      · simp [away]

/-- Where another argument is changed, an argument stays as it is, behind arguments of the same names. -/
theorem exists_cut_of_modify {front back : Arguments} {a : Argument}
    (cut : modify name f args = front ++ a :: back) (other : a.name ≠ name ∨ name ∈ front.names) :
    ∃ front' back', args = front' ++ a :: back' ∧ names front' = front.names := by
  induction args generalizing front with
  | nil =>
    obtain ⟨rfl, ⟨⟩⟩ | ⟨_, -, below⟩ := List.cons_eq_append_iff.mp cut
    · simp [names] at other
    · simp at below
  | cons b r ih =>
    rw [modify] at cut
    split at cut
    · next here =>
      obtain ⟨rfl, ⟨⟩⟩ | ⟨front, rfl, below⟩ := List.cons_eq_append_iff.mp cut
      · simp [names, here] at other
      · exact ⟨b :: front, back, by rw [below, List.cons_append], rfl⟩
    · next away =>
      obtain ⟨rfl, ⟨⟩⟩ | ⟨front, rfl, below⟩ := List.cons_eq_append_iff.mp cut
      · exact ⟨[], r, rfl, rfl⟩
      · have other : a.name ≠ name ∨ name ∈ names front := by
          simpa [names, Ne.symm away] using other
        obtain ⟨front', back', whole, same⟩ := ih below other
        exact ⟨b :: front', back', by rw [whole, List.cons_append], by simpa [names] using same⟩

theorem specified_ofNames (ps : List String) : (ofNames ps).Specified ps [] where
  names := by simp [names_ofNames]
  told before e after none := by simp at none
  untold front a back cut _ := by
    have member : a ∈ ofNames ps := cut ▸ List.mem_append_right front List.mem_cons_self
    obtain ⟨name, -, rfl⟩ := List.mem_map.mp member
    rfl

theorem Specified.specify {ps : List String} {es : List Entry} (specified : args.Specified ps es) (e : Entry) :
    (args.specify e.name e.spec).Specified ps (es ++ [e]) where
  names := by
    let told := (es.map Entry.name).filter (· ∉ ps)
    have known : e.name ∈ args.names ↔ e.name ∈ ps ∨ e.name ∈ told := by
      rw [specified.names, List.mem_append, List.mem_eraseDups]
    have added : ([e.name].filter (· ∉ ps)).removeAll told = if e.name ∈ args.names then [] else [e.name] := by
      by_cases declared : e.name ∈ ps
      · simp [known, declared, List.removeAll]
      · by_cases before : e.name ∈ told <;> simp [known, declared, before, List.removeAll]
    rw [Arguments.specify, names_modify, List.map_append, List.filter_append, List.eraseDups_append,
      ← List.append_assoc, ← specified.names, List.map_singleton, added]
    split <;> simp [List.eraseDups_cons]
  told before e' after cut last := by
    rw [get?_specify]
    obtain rfl | ⟨rest, x, rfl⟩ := List.eq_nil_or_concat after
    · obtain ⟨-, ⟨⟩⟩ := List.append_inj' cut rfl
      rw [if_pos rfl]
    · obtain ⟨earlier, ⟨⟩⟩ := List.append_inj' (cut.trans (by simp : _ = (before ++ e' :: rest) ++ [x])) rfl
      simp only [List.concat_eq_append, List.map_append, List.map_singleton, List.mem_append, List.mem_singleton,
        not_or] at last
      rw [if_neg (Ne.symm last.2), specified.told before e' rest earlier last.1]
  untold front a back cut other := by
    rw [List.map_append, List.map_singleton, List.mem_append, List.mem_singleton, not_or] at other
    have apart : a.name ≠ e.name ∨ e.name ∈ Arguments.names front := by
      rcases other with ⟨-, away⟩ | before
      · exact .inl away
      · by_cases same : a.name = e.name
        · exact .inr (same ▸ before)
        · exact .inl same
    obtain ⟨front', back', whole, same⟩ := exists_cut_of_modify cut apart
    exact specified.untold front' a back' whole (other.imp (·.1) (same ▸ ·))

theorem Specified.specifyAll {ps : List String} {told : List Entry} (specified : args.Specified ps told)
    (es : List Entry) : (Reader.specifyAll args es).Specified ps (told ++ es) := by
  induction es generalizing args told with
  | nil => simpa [Reader.specifyAll] using specified
  | cons e es ih => simpa [Reader.specifyAll] using ih (specified.specify e)

end Arguments

/-- An `arguments` block as it is read, by itself. -/
structure ArgumentsBlock where
  attrs : Table AttrValue
  entries : List Entry

namespace ArgumentsBlock

/-- Whether the block is about the outputs. -/
def isOutput (b : ArgumentsBlock) : Bool :=
  Reader.isOutputBlock b.attrs

/-- The entries of the blocks that are about the parameters. -/
def inputs (bs : List ArgumentsBlock) : List Entry :=
  (bs.filter (!·.isOutput)).flatMap entries

/-- The entries of the blocks that are about the outputs. -/
def outputs (bs : List ArgumentsBlock) : List Entry :=
  (bs.filter isOutput).flatMap entries

/-- What the block makes of a function. -/
def specify (b : ArgumentsBlock) (f : FunctionDoc) : FunctionDoc :=
  if b.isOutput then { f with returns := Reader.specifyAll f.returns b.entries }
  else { f with args := Reader.specifyAll f.args b.entries }

/-- Blocks about the parameters and blocks about the outputs do not meet. -/
theorem foldl_specify (bs : List ArgumentsBlock) (f : FunctionDoc) :
    bs.foldl (fun f b => b.specify f) f = { f with
      args := Reader.specifyAll f.args (inputs bs)
      returns := Reader.specifyAll f.returns (outputs bs) } := by
  induction bs generalizing f with
  | nil => rfl
  | cons b bs ih =>
    rw [List.foldl_cons, ih, specify]
    by_cases output : b.isOutput <;> simp [output, inputs, outputs, Reader.specifyAll]

end ArgumentsBlock

namespace Reader

/-- Reads the `arguments` block whose keyword is at the cursor. -/
def block (r : Reader) : Except Failure (ArgumentsBlock × Reader) :=
  match ((r.move Cursor.advance).move Cursor.skipWhitespace).attributes .ofArguments with
  | .error e => .error e
  | .ok (attrs, r') =>
    let (entries, r'') := (r'.withCursor r'.cursor.finishLine.2).entries .arguments true
    .ok (⟨attrs, entries⟩, r'')

theorem argumentsBlock_eq (f : FunctionDoc) (r : Reader) :
    r.argumentsBlock f = r.block.map fun (b, r') => (b.specify f, r') := by
  rw [argumentsBlock, block]
  rcases ((r.move Cursor.advance).move Cursor.skipWhitespace).attributes .ofArguments with e | ⟨attrs, r'⟩
  · rfl
  · by_cases output : isOutputBlock attrs <;>
      simp [Except.map, ArgumentsBlock.specify, ArgumentsBlock.isOutput, output]

theorem remaining_block {r : Reader} {t : Token} {b : ArgumentsBlock} {r' : Reader}
    (here : r.cursor.peek = some t) (read : r.block = .ok (b, r')) : r'.remaining < r.remaining :=
  @remaining_argumentsBlock { name := "", scope := "" } r (b.specify _, r') t here
    (by rw [argumentsBlock_eq, read]; rfl)

/-- Reads the `arguments` blocks at the start of a body, between blank and comment lines. -/
def blocks (r : Reader) : Except Failure (List ArgumentsBlock × Reader) :=
  let start := r.move (·.skip fun t => t.isSpacing || t.kind == .comment)
  match _ : start.cursor.peek with
  | none => .ok ([], start)
  | some t =>
    if t.isKeyword "arguments" then
      match _ : start.block with
      | .error e => .error e
      | .ok (b, r') => (blocks r').map fun (bs, s) => (b :: bs, s)
    else .ok ([], start)
termination_by r.remaining
decreasing_by
  rename_i here _ read
  have first : start.remaining ≤ r.remaining := Cursor.remaining_skip _ _
  exact Nat.lt_of_lt_of_le (remaining_block here read) first

/-- The blocks are read as they are without the function that they are about. -/
theorem argumentBlocks_eq_map (f : FunctionDoc) (r : Reader) :
    r.argumentBlocks f = r.blocks.map fun (bs, s) => (bs.foldl (fun f b => b.specify f) f, s) := by
  rw [argumentBlocks_eq]
  fun_induction blocks r generalizing f with
  | case1 r start none => simp only [start, none, Except.map, List.foldl_nil]
  | case2 r start t here keyword e failed =>
    simp only [start] at here failed
    simp only [here, keyword, if_true, argumentsBlock_eq, failed, Except.map]
  | case3 r start t here keyword b r' read ih =>
    simp only [start] at here read
    simp only [here, keyword, if_true, argumentsBlock_eq, read, Except.map]
    rw [argumentBlocks_eq, ih]
    cases blocks r' <;> rfl
  | case4 r start t here other =>
    simp only [start] at here
    simp only [here, other, Except.map, List.foldl_nil]
    rfl

theorem longBody_of_blocks {f : FunctionDoc} {trailing : Option Token} {r s : Reader} {bs : List ArgumentsBlock}
    (read : (r.withCursor r.cursor.commentRun.2).blocks = .ok (bs, s)) :
    longBody f trailing r = .ok ({ f with
      doc := docAfter trailing r.cursor.commentRun.1
      args := specifyAll f.args (ArgumentsBlock.inputs bs)
      returns := specifyAll f.returns (ArgumentsBlock.outputs bs) }, s.withCursor s.cursor.skipBlock.2) := by
  simp only [longBody, argumentBlocks_eq_map, read, Except.map, ArgumentsBlock.foldl_specify]

/-- The blocks behind a signature line are read as `bs`. Code on that line begins the body, which then has none. -/
def HasBlocks (r : Reader) (bs : List ArgumentsBlock) : Prop :=
  if sharesLine r.cursor then bs = [] else ∃ s, (r.withCursor r.cursor.commentRun.2).blocks = .ok (bs, s)

/-- A body on the line of the signature tells of no argument. -/
theorem exists_shortBody (f : FunctionDoc) (r : Reader) : ∃ doc s, shortBody f r = ({ f with doc := doc }, s) := by
  unfold shortBody
  rcases r.cursor.skipBlock.2.finishLine with ⟨_ | t, c⟩
  · exact ⟨_, _, rfl⟩
  · exact ⟨_, _, rfl⟩

section Source

variable {r : Reader} {expected : Option String} {rs ps : List String} {name : Token} {c c' : Cursor}
  (signature : (r.cursor.skipIf (·.isKeyword "function")).signature [] = .ok ((rs, name), c))
  (parameters : c.parameters = .ok (ps, c'))

include signature parameters

theorem function_eq_body (scope : String) :
    let f : FunctionDoc := { name := name.text, scope, args := .ofNames ps, returns := .ofNames rs }
    let behind := ((r.withCursor c).checkName expected name.line name.text).withCursor c'.finishLine.2
    r.function scope expected = if sharesLine behind.cursor then .ok (shortBody f behind)
      else longBody f c'.finishLine.1 behind := by
  simp only [function, signature, parameters, cursor_withCursor]
  rfl

/-- A function whose signature says `rs` and `ps`, with the blocks `bs` behind it, in any number and order. The function
is read, its parameters are `ps` with what the blocks for them add, and its outputs are `rs` with what the other blocks
add. -/
theorem function_specifies_arguments {bs : List ArgumentsBlock}
    (behind : (((r.withCursor c).checkName expected name.line name.text).withCursor c'.finishLine.2).HasBlocks bs)
    (scope : String) :
    ∃ f r', r.function scope expected = .ok (f, r') ∧ f.name = name.text ∧
      f.args.Specified ps (ArgumentsBlock.inputs bs) ∧ f.returns.Specified rs (ArgumentsBlock.outputs bs) := by
  rw [HasBlocks] at behind
  have whole := @function_eq_body r expected rs ps name c c' signature parameters scope
  split at behind
  · next shares =>
    subst behind
    obtain ⟨doc, s, body⟩ := exists_shortBody
      { name := name.text, scope, args := .ofNames ps, returns := .ofNames rs }
      (((r.withCursor c).checkName expected name.line name.text).withCursor c'.finishLine.2)
    simp only [shares, if_true, body] at whole
    exact ⟨_, _, whole, rfl, Arguments.specified_ofNames ps, Arguments.specified_ofNames rs⟩
  · next below =>
    obtain ⟨s, read⟩ := behind
    simp only [below, longBody_of_blocks read] at whole
    exact ⟨_, _, whole, rfl, (Arguments.specified_ofNames ps).specifyAll _,
      (Arguments.specified_ofNames rs).specifyAll _⟩

/-- A function is read only if the blocks behind its signature are. -/
theorem exists_blocks_of_function {scope : String} {result : FunctionDoc × Reader}
    (whole : r.function scope expected = .ok result) :
    ∃ bs, (((r.withCursor c).checkName expected name.line name.text).withCursor c'.finishLine.2).HasBlocks bs := by
  rw [function_eq_body signature parameters scope] at whole
  simp only [HasBlocks]
  split
  · exact ⟨[], rfl⟩
  · next below =>
    rw [if_neg below, longBody] at whole
    simp only [argumentBlocks_eq_map] at whole
    rcases read : ((((r.withCursor c).checkName expected name.line name.text).withCursor c'.finishLine.2).withCursor
      c'.finishLine.2.commentRun.2).blocks with e | ⟨bs, s⟩
    · simp only [cursor_withCursor, read, Except.map] at whole
      cases whole
    · exact ⟨bs, s, read⟩

end Source

/-- A function with placeholders, and blocks that tell twice of one name and of an option that the signature lacks. -/
theorem function_specifies_options :
    let ts := tokenize "function f(x,~,~)\narguments\nx\no.a\nend\narguments(Output)\ny\nend\narguments\nx\nend\n"
    let r : Reader := { cursor := .ofTokens ts }
    ∃ f s, r.function "" none = .ok (f, s) ∧ f.name = "f" ∧ f.args.names = ["x", "~", "~", "o.a"] ∧
      f.returns.names = ["y"] := by
  intro ts r
  let c : Cursor := ⟨(ts.take 3).reverse, ts.drop 3⟩
  let c' : Cursor := ⟨(ts.take 10).reverse, ts.drop 10⟩
  obtain ⟨signature, parameters, below, told⟩ :
      (r.cursor.skipIf (·.isKeyword "function")).signature [] = .ok (([], ⟨.nameFunction, "f", 1⟩), c) ∧
      c.parameters = .ok (["x", "~", "~"], c') ∧ sharesLine c'.finishLine.2 = false ∧
      (blocks ⟨c'.finishLine.2.commentRun.2, []⟩).toOption.map (fun read =>
        ((ArgumentsBlock.inputs read.1).map Entry.name, (ArgumentsBlock.outputs read.1).map Entry.name)) =
          some (["x", "o.a", "x"], ["y"]) := by decide +kernel
  cases read : blocks ⟨c'.finishLine.2.commentRun.2, []⟩ with
  | error e => simp [read, Except.toOption] at told
  | ok result =>
    obtain ⟨inputs, outputs⟩ : (ArgumentsBlock.inputs result.1).map Entry.name = ["x", "o.a", "x"] ∧
        (ArgumentsBlock.outputs result.1).map Entry.name = ["y"] := by
      simpa [read, Except.toOption] using told
    have behind : ((r.withCursor c).withCursor c'.finishLine.2).HasBlocks result.1 := by
      rw [HasBlocks, cursor_withCursor, below]
      exact ⟨result.2, read⟩
    obtain ⟨f, s, whole, name, args, returns⟩ :=
      @function_specifies_arguments r none [] _ _ c c' signature parameters _ behind ""
    refine ⟨f, s, whole, name, ?_, ?_⟩
    · rw [args.names, inputs]
      decide
    · rw [returns.names, outputs]
      decide

end Reader

end MatlabOutline
