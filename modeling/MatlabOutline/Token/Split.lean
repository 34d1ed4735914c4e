import MatlabOutline.Word

/-!
Splits of a text into a part that is taken and the rest, and the scanners of the lexer as splits:
line bodies, white space, strings, numbers, dotted names and block comments. Each scanner loses
nothing: the two parts of its split concatenate to its input.
-/

namespace MatlabOutline

/-- A text cut in two: what is taken, and what follows. -/
structure Split where
  taken : List Char
  rest : List Char
deriving DecidableEq, Repr

namespace Split

def push (c : Char) (s : Split) : Split :=
  ⟨c :: s.taken, s.rest⟩

def prepend (cs : List Char) (s : Split) : Split :=
  ⟨cs ++ s.taken, s.rest⟩

/-- Goes on with `f` where `s` stopped. -/
def andThen (s : Split) (f : List Char → Split) : Split :=
  (f s.rest).prepend s.taken

/-- The text that was cut. -/
def whole (s : Split) : List Char :=
  s.taken ++ s.rest

@[simp] theorem whole_mk (taken rest : List Char) : (Split.mk taken rest).whole = taken ++ rest :=
  rfl

@[simp] theorem whole_push (c : Char) (s : Split) : (s.push c).whole = c :: s.whole :=
  rfl

@[simp] theorem whole_prepend (cs : List Char) (s : Split) :
    (s.prepend cs).whole = cs ++ s.whole := by
  simp [prepend, whole]

theorem whole_andThen (s : Split) (f : List Char → Split) (total : ∀ cs, (f cs).whole = cs) :
    (s.andThen f).whole = s.whole := by
  rw [andThen, whole_prepend, total]
  rfl

theorem length_rest_le {s : Split} {cs : List Char} (h : s.whole = cs) :
    s.rest.length ≤ cs.length := by
  subst h
  simp [whole]

end Split

namespace Scan

/-- The longest run of characters in `p`. -/
def run (p : Char → Bool) (cs : List Char) : Split :=
  ⟨cs.takeWhile p, cs.dropWhile p⟩

/-- Everything before the first line end. -/
def lineBody : List Char → Split
  | [] => ⟨[], []⟩
  | '\n' :: r => ⟨[], '\n' :: r⟩
  | '\r' :: '\n' :: r => ⟨[], '\r' :: '\n' :: r⟩
  | c :: r => (lineBody r).push c

/-- A line end at the front, if there is one. -/
def lineEnd : List Char → Split
  | '\n' :: r => ⟨['\n'], r⟩
  | '\r' :: '\n' :: r => ⟨['\r', '\n'], r⟩
  | cs => ⟨[], cs⟩

/-- White space up to a line end. A carriage return that ends no line is white space. -/
def spaces : List Char → Split
  | [] => ⟨[], []⟩
  | '\n' :: r => ⟨[], '\n' :: r⟩
  | '\r' :: '\n' :: r => ⟨[], '\r' :: '\n' :: r⟩
  | c :: r => if isBlank c then (spaces r).push c else ⟨[], c :: r⟩

/-- The rest of a string after its opening quote. A doubled quote stands for one, and a string
that is not closed ends with its line. -/
def stringBody (quote : Char) : List Char → Split
  | [] => ⟨[], []⟩
  | '\n' :: r => ⟨[], '\n' :: r⟩
  | '\r' :: '\n' :: r => ⟨[], '\r' :: '\n' :: r⟩
  | [c] => ⟨[c], []⟩
  | c :: d :: r =>
    if c = quote then
      if d = quote then ((stringBody quote r).push d).push c else ⟨[c], d :: r⟩
    else (stringBody quote (d :: r)).push c

def digits (cs : List Char) : Split :=
  run Char.isDigit cs

def isHexDigit (c : Char) : Bool :=
  c.isDigit || ('a' ≤ c && c ≤ 'f') || ('A' ≤ c && c ≤ 'F')

/-- The mark of an imaginary number, unless it begins a longer word. -/
def imaginary : List Char → Split
  | [] => ⟨[], []⟩
  | c :: r =>
    if (c == 'i' || c == 'j') && !(r.head?.any isIdentRest) then ⟨[c], r⟩ else ⟨[], c :: r⟩

/-- The point and digits after whole digits. The point belongs to an operator before `*`, `/`,
`\`, `^` or a quote, and to a continuation marker before two more. -/
def fraction : List Char → Split
  | '.' :: r =>
    match r with
    | '*' :: _ | '/' :: _ | '\\' :: _ | '^' :: _ | '\'' :: _ | '.' :: '.' :: _ => ⟨[], '.' :: r⟩
    | _ => (digits r).push '.'
  | cs => ⟨[], cs⟩

def isExponentMark (c : Char) : Bool :=
  c == 'e' || c == 'E' || c == 'd' || c == 'D'

/-- An exponent mark with an optional sign, if a digit follows. -/
def exponent : List Char → Split
  | [] => ⟨[], []⟩
  | [c] => ⟨[], [c]⟩
  | c :: d :: r =>
    if isExponentMark c then
      if d.isDigit then (digits (d :: r)).push c
      else if (d == '+' || d == '-') && r.head?.any Char.isDigit then ((digits r).push d).push c
      else ⟨[], c :: d :: r⟩
    else ⟨[], c :: d :: r⟩

/-- Whether a hexadecimal number follows a leading zero. -/
def startsHex : List Char → Bool
  | x :: h :: _ => (x == 'x' || x == 'X') && isHexDigit h
  | _ => false

/-- The rest of a number that begins with `first`, a digit or the point before one. -/
def numberRest (first : Char) (cs : List Char) : Split :=
  if first == '0' && startsHex cs then
    match cs with
    | x :: r => ((run isHexDigit r).andThen imaginary).push x
    | [] => ⟨[], []⟩
  else if first == '.' then ((digits cs).andThen exponent).andThen imaginary
  else (((digits cs).andThen fraction).andThen exponent).andThen imaginary

theorem run_whole (p : Char → Bool) (cs : List Char) : (run p cs).whole = cs := by
  simp [run]

theorem lineBody_whole (cs : List Char) : (lineBody cs).whole = cs := by
  fun_induction lineBody cs <;> simp_all

theorem lineEnd_whole (cs : List Char) : (lineEnd cs).whole = cs := by
  fun_cases lineEnd cs <;> simp

theorem spaces_whole (cs : List Char) : (spaces cs).whole = cs := by
  fun_induction spaces cs <;> simp_all

theorem stringBody_whole (quote : Char) (cs : List Char) : (stringBody quote cs).whole = cs := by
  fun_induction stringBody quote cs <;> simp_all

theorem digits_whole (cs : List Char) : (digits cs).whole = cs :=
  run_whole _ _

theorem imaginary_whole (cs : List Char) : (imaginary cs).whole = cs := by
  fun_cases imaginary cs <;> simp

theorem fraction_whole (cs : List Char) : (fraction cs).whole = cs := by
  fun_cases fraction cs <;> simp [digits_whole]

theorem exponent_whole (cs : List Char) : (exponent cs).whole = cs := by
  fun_cases exponent cs <;> simp [digits_whole]

theorem numberRest_whole (first : Char) (cs : List Char) : (numberRest first cs).whole = cs := by
  fun_cases numberRest first cs <;>
    simp [Split.whole_andThen, imaginary_whole, exponent_whole, fraction_whole, digits_whole,
      run_whole]

/-- The further parts of a dotted name: each is a dot and an identifier. -/
def dottedRest (cs : List Char) : Split :=
  match cs with
  | '.' :: c :: r =>
    if isIdentStart c then
      (dottedRest (r.dropWhile isIdentRest)).prepend ('.' :: c :: r.takeWhile isIdentRest)
    else ⟨[], cs⟩
  | _ => ⟨[], cs⟩
termination_by cs.length
decreasing_by
  have := (r.dropWhile_sublist isIdentRest).length_le
  simp; omega

theorem dottedRest_whole (cs : List Char) : (dottedRest cs).whole = cs := by
  fun_induction dottedRest cs <;> simp_all

/-- The depth of nested block comments after a line of their text. -/
def depthAfter (depth : Nat) (line : List Char) : Nat :=
  if Text.trim line = ['%', '\x7b'] then depth + 1
  else if Text.trim line = ['%', '\x7d'] then depth - 1
  else depth

/-- The further lines of a block comment, from the line end before the first of them. The comment
ends before the line end of the line that closes it, or with the input. -/
def blockLines (depth : Nat) (cs : List Char) : Split :=
  let ending := lineEnd cs
  if ending.taken.isEmpty then ⟨[], cs⟩
  else
    let line := lineBody ending.rest
    let inner := depthAfter depth line.taken
    if inner = 0 then line.prepend ending.taken
    else (blockLines inner line.rest).prepend (ending.taken ++ line.taken)
termination_by cs.length
decreasing_by
  rename_i ended _
  have total := congrArg List.length (lineEnd_whole cs)
  have bound := Split.length_rest_le (lineBody_whole (lineEnd cs).rest)
  have positive : 0 < (lineEnd cs).taken.length := by
    simpa [ending, List.length_pos_iff] using ended
  simp only [Split.whole, List.length_append] at total
  omega

theorem blockLines_whole (depth : Nat) (cs : List Char) : (blockLines depth cs).whole = cs := by
  fun_induction blockLines depth cs with
  | case1 => simp
  | case2 depth cs ending _ line inner _ =>
    rw [Split.whole_prepend, lineBody_whole]
    exact lineEnd_whole cs
  | case3 depth cs ending _ line inner _ ih =>
    rw [Split.whole_prepend, ih, List.append_assoc, ← Split.whole, lineBody_whole]
    exact lineEnd_whole cs

/-- Whether a `%` at the start of a line, which `cs` follows, opens a block comment: it is alone
on its line with an opening brace. -/
def opensBlockComment : List Char → Bool
  | '\x7b' :: r => Text.allBlank (lineBody r).taken
  | _ => false

/-- The rest of a block comment after its first `%`. -/
def blockRest (cs : List Char) : Split :=
  (lineBody cs).andThen (blockLines 1)

theorem blockRest_whole (cs : List Char) : (blockRest cs).whole = cs := by
  simp [blockRest, Split.whole_andThen, blockLines_whole, lineBody_whole]

/-- Whether the signature after a `function` keyword has output arguments: an `=` outside
brackets, on the same line, before any parameter list, comment or end of statement. -/
def signatureHasOutputs (depth : Nat) : List Char → Bool
  | [] => false
  | c :: r =>
    if c == '\n' || c == '%' || c == ';' then false
    else if c == '.' && r.head? == some '.' then false
    else if c == '[' || c == '\x7b' then signatureHasOutputs (depth + 1) r
    else if c == ']' || c == '\x7d' then signatureHasOutputs (depth - 1) r
    else if c == '(' && depth == 0 then false
    else if c == '=' && r.head? != some '=' then true
    else signatureHasOutputs depth r

/-- Whether what follows a block word at the start of a line lets it open a block. An assignment
uses the word as a variable. -/
def endsBlockWord (cs : List Char) : Bool :=
  let assigned := match (spaces cs).rest with
    | '=' :: '=' :: _ => false
    | '=' :: _ => true
    | _ => false
  !assigned && cs.head?.all fun c =>
    isBlank c || c == '(' || c == '%' || c == ';' || c == ','

end Scan

end MatlabOutline
