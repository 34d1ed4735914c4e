import MatlabOutline.Token.Lexer

/-!
Tokens cover their source: each holds at least one character, none is lost, and the line of each
is fixed by the line ends before it.
-/

namespace MatlabOutline

theorem Text.feeds_append (cs ds : List Char) : Text.feeds (cs ++ ds) = Text.feeds cs + Text.feeds ds :=
  List.count_append

/-- The text that lexemes cover. -/
def spelled (xs : List (TokenKind × List Char)) : List Char :=
  (xs.map Prod.snd).flatten

@[simp] theorem spelled_nil : spelled [] = [] :=
  rfl

@[simp] theorem spelled_cons (x : TokenKind × List Char) (xs : List (TokenKind × List Char)) :
    spelled (x :: xs) = x.2 ++ spelled xs :=
  rfl

namespace Lexer

theorem kind_dot (st : LexState) (r : List Char) :
    (dot st r).kind ∈ [.comment, .operator, .number, .punctuation] := by
  fun_cases dot st r <;> simp

theorem kind_word (st : LexState) (c : Char) (r : List Char) :
    (word st c r).kind ∈ [.name, .nameFunction, .keyword] := by
  fun_cases word st c r
  case case4 =>
    simp only [wordKind]
    split
    · simp
    · split <;> simp
  all_goals simp

/-- A line end is written in one of two ways. -/
theorem newline_cases {st : LexState} {c : Char} {r : List Char}
    (newline : (step st c r).kind = .newline) : c = '\n' ∨ c = '\r' ∧ r.head? = some '\n' := by
  fun_cases step st c r
  case case1 feed => exact .inl (beq_iff_eq.mp feed)
  case case2 _ carriage => exact .inr (by simpa using carriage)
  case case6 =>
    have kind := kind_dot st r
    simp_all [step]
  case case10 =>
    have kind := kind_word st c r
    simp_all [step]
  all_goals simp_all [step, operator]

theorem feeds_step_of_newline {st : LexState} {c : Char} {r : List Char}
    (newline : (step st c r).kind = .newline) : Text.feeds (c :: (step st c r).split.taken) = 1 := by
  rcases newline_cases newline with rfl | ⟨rfl, head⟩
  · rfl
  · simp [step, head, Text.feeds]

theorem feeds_spaces (r : List Char) : Text.feeds (Scan.spaces r).taken = 0 := by
  fun_induction Scan.spaces r with
  | case4 c r feed blank _ ih =>
    have other : c ≠ '\n' := by simpa using feed
    simpa [Split.push, Text.feeds, List.count_cons, other] using ih
  | _ => rfl

/-- White space stays within a line. -/
theorem feeds_step_of_whitespace {st : LexState} {c : Char} {r : List Char}
    (blank : (step st c r).kind = .whitespace) : Text.feeds (c :: (step st c r).split.taken) = 0 := by
  fun_cases step st c r
  case case3 feed _ _ =>
    have other : c ≠ '\n' := by simpa using feed
    have rest := feeds_spaces r
    simpa [Text.feeds, List.count_cons, other] using rest
  case case6 =>
    have kind := kind_dot st r
    simp_all [step]
  case case10 =>
    have kind := kind_word st c r
    simp_all [step]
  all_goals simp_all [step, operator]

theorem lexemes_of_step {st next : LexState} {c : Char} {r taken rest : List Char} {kind : TokenKind}
    (step : step st c r = ⟨kind, ⟨taken, rest⟩, next⟩) :
    lexemes st (c :: r) = (kind, c :: taken) :: lexemes next rest := by
  rw [lexemes, step]

/-- What holds of every step holds of every lexeme. -/
theorem forall_lexemes {motive : TokenKind → List Char → Prop}
    (each : ∀ st c r, motive (step st c r).kind (c :: (step st c r).split.taken))
    (st : LexState) (cs : List Char) : ∀ x ∈ lexemes st cs, motive x.1 x.2 := by
  fun_induction lexemes st cs with
  | case1 => simp
  | case2 st c r s ih =>
    intro x member
    rcases List.mem_cons.mp member with first | later
    · rw [first]
      exact each st c r
    · exact ih x later

end Lexer

namespace Token

@[simp] theorem concat_nil : concat [] = "" :=
  rfl

@[simp] theorem concat_cons (t : Token) (ts : List Token) : concat (t :: ts) = t.text ++ concat ts := by
  simp [concat, String.join_cons]

@[simp] theorem concat_append (ts us : List Token) : concat (ts ++ us) = concat ts ++ concat us := by
  simp [concat, String.join_append]

theorem feeds_concat_eq_zero {ts : List Token} (none : ∀ t ∈ ts, Text.feeds t.text.toList = 0) :
    Text.feeds (concat ts).toList = 0 := by
  induction ts with
  | nil => rfl
  | cons t ts ih =>
    rw [List.forall_mem_cons] at none
    rw [concat_cons, String.toList_append, Text.feeds_append, none.1, ih none.2]

theorem concat_place (line : Nat) (xs : List (TokenKind × List Char)) :
    concat (place line xs) = String.ofList (xs.map Prod.snd).flatten := by
  induction xs generalizing line with
  | nil => rfl
  | cons x xs ih => simp [place, ih, String.ofList_append]

/-- The line of a placed token counts the line feeds of the tokens before it. -/
theorem line_of_place {line : Nat} {xs : List (TokenKind × List Char)} {before after : List Token}
    {t : Token} (cut : place line xs = before ++ t :: after) :
    t.line = line + Text.feeds (concat before).toList := by
  induction before generalizing line xs with
  | nil =>
    rcases xs with _ | ⟨⟨kind, cs⟩, xs⟩
    · simp [place] at cut
    · simp only [place, List.nil_append, List.cons.injEq] at cut
      rw [← cut.1]
      rfl
  | cons u before ih =>
    rcases xs with _ | ⟨⟨kind, cs⟩, xs⟩
    · simp [place] at cut
    · simp only [place, List.cons_append, List.cons.injEq] at cut
      obtain ⟨rfl, rest⟩ := cut
      rw [ih rest, concat_cons, String.toList_append, Text.feeds_append, String.toList_ofList]
      omega

theorem mem_of_mem_place {line : Nat} {xs : List (TokenKind × List Char)} {t : Token}
    (member : t ∈ place line xs) : (t.kind, t.text.toList) ∈ xs := by
  induction xs generalizing line with
  | nil => simp [place] at member
  | cons x xs ih =>
    rcases List.mem_cons.mp member with first | later
    · simp [first]
    · exact List.mem_cons_of_mem _ (ih later)

end Token

/-- The tokens of a text concatenate to it. -/
theorem concat_tokenize (source : String) : Token.concat (tokenize source) = source := by
  rw [tokenize, Token.concat_place, Lexer.lexemes_flatten, String.ofList_toList]

theorem text_ne_of_mem_tokenize {source : String} {t : Token} (member : t ∈ tokenize source) :
    t.text ≠ "" := by
  have filled := Lexer.forall_lexemes (motive := fun _ cs => cs ≠ []) (by simp) .initial source.toList
  intro empty
  exact filled _ (Token.mem_of_mem_place member) (by simp [empty])

theorem feeds_of_mem_tokenize {source : String} {t : Token} (member : t ∈ tokenize source)
    (newline : t.isNewline = true) : Text.feeds t.text.toList = 1 := by
  have single := Lexer.forall_lexemes (motive := fun kind cs => kind = .newline → Text.feeds cs = 1)
    (fun _ _ _ => Lexer.feeds_step_of_newline) .initial source.toList
  exact single _ (Token.mem_of_mem_place member) (by simpa [Token.isNewline] using newline)

theorem feeds_of_whitespace {source : String} {t : Token} (member : t ∈ tokenize source)
    (blank : t.isWhitespace = true) : Text.feeds t.text.toList = 0 := by
  have none := Lexer.forall_lexemes (motive := fun kind cs => kind = .whitespace → Text.feeds cs = 0)
    (fun _ _ _ => Lexer.feeds_step_of_whitespace) .initial source.toList
  exact none _ (Token.mem_of_mem_place member) (by simpa [Token.isWhitespace] using blank)

/-- A token begins on the line that the line feeds before it count. -/
theorem line_of_tokenize {source : String} {before after : List Token} {t : Token}
    (cut : tokenize source = before ++ t :: after) :
    t.line = 1 + Text.feeds (Token.concat before).toList :=
  Token.line_of_place cut

/-- The next token begins where a token ends, or one line below if that is a line end. -/
theorem line_after_token {source : String} {before after : List Token} {t u : Token}
    (cut : tokenize source = before ++ t :: u :: after) :
    u.line = if t.isNewline then t.endLine + 1 else t.endLine := by
  have first := line_of_tokenize cut
  have next : tokenize source = (before ++ [t]) ++ u :: after := by simpa using cut
  have second := line_of_tokenize next
  have member : t ∈ tokenize source := by simp [cut]
  rw [Token.concat_append, String.toList_append, Text.feeds_append] at second
  simp only [Token.concat_cons, Token.concat_nil, String.append_empty] at second
  unfold Token.endLine
  split
  · next newline =>
    rw [feeds_of_mem_tokenize member newline] at second
    omega
  · omega

end MatlabOutline
