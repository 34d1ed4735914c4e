import MatlabOutline.Proofs.Lexing.Lines
import MatlabOutline.Proofs.Lexing.LineScanners

/-!
The ways to write a text down: its lines end in a line feed or in a carriage return and a line feed, and
one more line end may be put behind it. A scanner is neutral if it takes the same part of a text without
carriage returns however that is written (`Scan.Neutral`).
-/

namespace MatlabOutline

inductive LineEnding
  | feed
  /-- A carriage return and a line feed. -/
  | carriage
deriving DecidableEq, Repr

namespace LineEnding

def chars : LineEnding → List Char
  | feed => ['\n']
  | carriage => ['\r', '\n']

/-- The text with each line feed written as this line end. -/
def write (e : LineEnding) (cs : List Char) : List Char :=
  cs.flatMap fun c => if c = '\n' then e.chars else [c]

variable (e : LineEnding)

@[simp] theorem write_nil : e.write [] = [] :=
  rfl

@[simp] theorem write_append (cs ds : List Char) : e.write (cs ++ ds) = e.write cs ++ e.write ds :=
  List.flatMap_append

@[simp] theorem write_line (cs : List Char) : e.write ('\n' :: cs) = e.chars ++ e.write cs := by
  simp [write]

theorem write_cons {c : Char} (other : c ≠ '\n') (cs : List Char) :
    e.write (c :: cs) = c :: e.write cs := by
  simp [write, other]

theorem write_of_not_mem {cs : List Char} (within : '\n' ∉ cs) : e.write cs = cs := by
  induction cs with
  | nil => rfl
  | cons c cs ih =>
    rw [List.mem_cons, not_or] at within
    rw [write_cons e (Ne.symm within.1), ih within.2]

@[simp] theorem write_feed (cs : List Char) : feed.write cs = cs := by
  induction cs with
  | nil => rfl
  | cons c cs ih =>
    by_cases line : c = '\n'
    · rw [line, write_line, ih]
      rfl
    · rw [write_cons _ line, ih]

@[simp] theorem feeds_chars : Text.feeds e.chars = 1 := by
  cases e <;> rfl

@[simp] theorem feeds_write (cs : List Char) : Text.feeds (e.write cs) = Text.feeds cs := by
  induction cs with
  | nil => rfl
  | cons c cs ih =>
    by_cases line : c = '\n'
    · rw [line, write_line, Text.feeds_append, ih, feeds_chars]
      simp only [Text.feeds, List.count_cons_self]
      omega
    · rw [write_cons e line]
      simpa [Text.feeds, List.count_cons, line] using ih

end LineEnding

/-- A way to write a text down. -/
structure Rendition where
  ending : LineEnding
  /-- One more line end is put behind the text. -/
  closed : Bool

namespace Rendition

variable (w : Rendition)

def tail : List Char :=
  if w.closed then w.ending.chars else []

def text (cs : List Char) : List Char :=
  w.ending.write cs ++ w.tail

@[simp] theorem text_nil : w.text [] = w.tail :=
  rfl

@[simp] theorem text_line (cs : List Char) : w.text ('\n' :: cs) = w.ending.chars ++ w.text cs := by
  simp [text]

theorem text_cons {c : Char} (other : c ≠ '\n') (cs : List Char) : w.text (c :: cs) = c :: w.text cs := by
  rw [text, LineEnding.write_cons _ other]
  rfl

theorem text_append (cs ds : List Char) : w.text (cs ++ ds) = w.ending.write cs ++ w.text ds := by
  simp [text]

theorem atLineEnd_chars (cs : List Char) : Scan.atLineEnd (w.ending.chars ++ cs) = true := by
  cases w.ending <;> rfl

theorem tail_cases : w.tail = [] ∨ Scan.atLineEnd w.tail = true := by
  rcases closed : w.closed with _ | _
  · exact .inl (by simp [tail, closed])
  · right
    have ended := w.atLineEnd_chars []
    rw [List.append_nil] at ended
    rw [tail, if_pos closed, ended]

theorem head?_text_any {p : Char → Bool} (feed : p '\n' = false) (carriage : p '\r' = false)
    (r : List Char) : (w.text r).head?.any p = r.head?.any p := by
  rcases r with _ | ⟨c, r⟩
  · rcases w with ⟨_ | _, _ | _⟩ <;> simp [tail, LineEnding.chars, feed, carriage]
  · by_cases line : c = '\n'
    · rw [line, text_line]
      cases w.ending <;> simp [LineEnding.chars, feed, carriage]
    · rw [w.text_cons line]
      rfl

theorem head?_text_all {p : Char → Bool} (feed : p '\n' = true) (carriage : p '\r' = true)
    (r : List Char) : (w.text r).head?.all p = r.head?.all p := by
  rcases r with _ | ⟨c, r⟩
  · rcases w with ⟨_ | _, _ | _⟩ <;> simp [tail, LineEnding.chars, feed, carriage]
  · by_cases line : c = '\n'
    · rw [line, text_line]
      cases w.ending <;> simp [LineEnding.chars, feed, carriage]
    · rw [w.text_cons line]
      rfl

/-- A character that belongs to no line end is in front of both texts or of neither. -/
theorem head?_text_beq {d : Char} (feed : d ≠ '\n') (carriage : d ≠ '\r') (r : List Char) :
    ((w.text r).head? == some d) = (r.head? == some d) := by
  have front (o : Option Char) : (o == some d) = o.any (· == d) := by cases o <;> rfl
  rw [front, front, w.head?_text_any]
  · exact beq_false_of_ne (Ne.symm feed)
  · exact beq_false_of_ne (Ne.symm carriage)

end Rendition

/-- The split of the text as it is written. -/
def Split.rendered (w : Rendition) (s : Split) : Split :=
  ⟨w.ending.write s.taken, w.text s.rest⟩

theorem Split.not_mem_rest {s : Split} {r : List Char} {c : Char} (total : s.whole = r) (absent : c ∉ r) :
    c ∉ s.rest := by
  intro member
  rw [← total] at absent
  exact absent (List.mem_append_right _ member)

namespace Scan

def NeutralAt (w : Rendition) (f : List Char → Split) (r : List Char) : Prop :=
  f (w.text r) = (f r).rendered w

/-- The scanner takes the same part of a text however its lines end. -/
def Neutral (f : List Char → Split) : Prop :=
  ∀ (w : Rendition) (r : List Char), '\r' ∉ r → NeutralAt w f r

/-- The scanner takes nothing at a line end or at the end of the text. -/
def StopsAtLineEnd (f : List Char → Split) : Prop :=
  ∀ cs, cs = [] ∨ atLineEnd cs = true → f cs = ⟨[], cs⟩

variable {w : Rendition} {f g : List Char → Split}

theorem NeutralAt.stop {r : List Char} (here : f r = ⟨[], r⟩) (there : f (w.text r) = ⟨[], w.text r⟩) :
    NeutralAt w f r := by
  rw [NeutralAt, here, there]
  rfl

theorem NeutralAt.push {c : Char} {r : List Char} (other : c ≠ '\n') (here : f (c :: r) = (g r).push c)
    (there : f (c :: w.text r) = (g (w.text r)).push c) (rest : NeutralAt w g r) :
    NeutralAt w f (c :: r) := by
  rw [NeutralAt, w.text_cons other, here, there, rest]
  simp only [Split.rendered, Split.push, LineEnding.write_cons _ other]

theorem NeutralAt.andThen {r : List Char} (first : NeutralAt w f r) (second : NeutralAt w g (f r).rest) :
    NeutralAt w (fun r => (f r).andThen g) r := by
  simp only [NeutralAt, Split.andThen, Split.prepend] at first second ⊢
  rw [first]
  simp only [Split.rendered] at second ⊢
  rw [second, LineEnding.write_append]

theorem NeutralAt.congr {r : List Char} (rest : NeutralAt w g r) (here : f r = g r)
    (there : f (w.text r) = g (w.text r)) : NeutralAt w f r := by
  rw [NeutralAt, here, there, rest]

theorem Neutral.andThen (first : Neutral f) (second : Neutral g) (total : ∀ r, (f r).whole = r) :
    Neutral fun r => (f r).andThen g := by
  intro w r plain
  exact (first w r plain).andThen (second w _ (Split.not_mem_rest (total r) plain))

theorem StopsAtLineEnd.nil (stops : StopsAtLineEnd f) (w : Rendition) : NeutralAt w f [] := by
  apply NeutralAt.stop (stops [] (.inl rfl))
  exact stops _ w.tail_cases

theorem StopsAtLineEnd.line (stops : StopsAtLineEnd f) (w : Rendition) (r : List Char) :
    NeutralAt w f ('\n' :: r) := by
  apply NeutralAt.stop (stops _ (.inr rfl))
  rw [w.text_line]
  exact stops _ (.inr (w.atLineEnd_chars _))

/-- Where nothing is taken at line ends, only other characters can make a difference. -/
theorem StopsAtLineEnd.neutral (stops : StopsAtLineEnd f)
    (other : ∀ (w : Rendition) (c : Char) (r : List Char), c ≠ '\n' → c ≠ '\r' → '\r' ∉ r → NeutralAt w f (c :: r)) :
    Neutral f := by
  intro w r plain
  rcases r with _ | ⟨c, r⟩
  · exact stops.nil w
  · rw [List.mem_cons, not_or] at plain
    by_cases line : c = '\n'
    · rw [line]
      exact stops.line w r
    · exact other w c r line (Ne.symm plain.1) plain.2

theorem atLineEnd_of_other {c : Char} (line : c ≠ '\n') (carriage : c ≠ '\r') (r : List Char) :
    atLineEnd (c :: r) = false := by
  simp [atLineEnd, line, carriage]

end Scan

end MatlabOutline
