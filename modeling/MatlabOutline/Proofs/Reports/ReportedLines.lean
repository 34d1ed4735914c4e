import MatlabOutline.SourceUnit
import MatlabOutline.Proofs.Normalize.Origins
import MatlabOutline.Proofs.Reports.Declarations

/-!
The lines that reading a unit reports. Each is the line of a place in the normal form, moved down by
the header; it is the line of that place in the original text exactly if no line end before it was
cut when continued lines were joined (`parseUnit_reported_lines`).
-/

namespace MatlabOutline

namespace Cursor

/-- The token whose line is the line of the cursor: the current one, or the last one at the end. -/
def focus (c : Cursor) : Option Token :=
  c.peek <|> c.previous

def before (c : Cursor) : List Token :=
  match c.rest with
  | [] => c.passed.tail.reverse
  | _ :: _ => c.passed.reverse

theorem focus_split {c : Cursor} {t : Token} (here : c.focus = some t) :
    ∃ after, c.tokens = c.before ++ t :: after := by
  rcases c with ⟨_ | ⟨u, passed⟩, _ | ⟨v, r⟩⟩
  · simp [focus, peek, previous] at here
  · exact ⟨r, by simp_all [focus, peek, previous, tokens, before]⟩
  · exact ⟨[], by simp_all [focus, peek, previous, tokens, before]⟩
  · exact ⟨r, by simp_all [focus, peek, previous, tokens, before]⟩

theorem line_of_tokens {c : Cursor} {source : String} (inside : c.tokens = tokenize source) :
    c.line = 1 + Text.feeds (Token.concat c.before).toList := by
  rcases focused : c.focus with _ | t
  · rcases c with ⟨_ | ⟨u, passed⟩, _ | ⟨v, r⟩⟩ <;> simp [focus, peek, previous] at focused
    rfl
  · obtain ⟨after, cut⟩ := focus_split focused
    have line : c.line = t.line := by
      rcases c with ⟨_ | ⟨u, passed⟩, _ | ⟨v, r⟩⟩ <;> simp_all [focus, peek, previous, line]
    rw [line]
    exact line_of_tokenize (inside.symm.trans cut)

end Cursor

/-- A place in the normal form of the body of `text`. -/
structure Site (text : String) where
  cursor : Cursor
  inside : cursor.tokens = tokenize (normalize (removeHeader text))

namespace Site

variable {text : String}

/-- Where the token of a site begins in the normal form. -/
def offset (s : Site text) : Nat :=
  (Token.concat s.cursor.before).toList.length

/-- Where it comes from in the original text. -/
def position (s : Site text) : Nat :=
  headerSize text + normalOrigin (removeHeader text) s.offset

/-- The line of the original text on which it stands. -/
def line (s : Site text) : Nat :=
  1 + Text.feeds (text.toList.take s.position)

/-- The line that is reported for it. -/
def reported (s : Site text) : Nat :=
  s.cursor.line + headerLines text

/-- The number of line ends before it that joining has cut. -/
def joined (s : Site text) : Nat :=
  joinedLines (removeHeader text) s.offset

/-- Whether normalization wrote its first character. -/
def isNew (s : Site text) : Bool :=
  MatlabOutline.isNew (removeHeader text) s.offset

theorem normal_split (s : Site text) :
    ∃ after, (normalize (removeHeader text)).toList =
        (Token.concat s.cursor.before).toList ++ after ∧
      ∀ t, s.cursor.focus = some t → ∃ more, after = t.text.toList ++ more := by
  rcases focused : s.cursor.focus with _ | t
  · have nothing : s.cursor.tokens = [] ∧ s.cursor.before = [] := by
      rcases s with ⟨⟨_ | ⟨u, passed⟩, _ | ⟨v, r⟩⟩, inside⟩ <;>
        simp_all [Cursor.focus, Cursor.peek, Cursor.previous, Cursor.tokens, Cursor.before]
    have empty := concat_tokenize (normalize (removeHeader text))
    rw [← s.inside, nothing.1] at empty
    exact ⟨[], by simp [← empty, nothing.2], by simp⟩
  · obtain ⟨after, cut⟩ := Cursor.focus_split focused
    have whole := concat_tokenize (normalize (removeHeader text))
    rw [← s.inside, cut, Token.concat_append, Token.concat_cons] at whole
    refine ⟨(t.text ++ Token.concat after).toList, by rw [← whole, String.toList_append], ?_⟩
    rintro u same
    obtain rfl := Option.some.inj same
    exact ⟨(Token.concat after).toList, String.toList_append⟩

/-- The reported line falls behind by the line ends that joining has cut. -/
theorem line_eq (s : Site text) : s.line = s.reported + s.joined := by
  obtain ⟨after, whole, _⟩ := s.normal_split
  have body := feeds_normalOrigin (removeHeader text) s.offset
  rw [whole, offset, List.take_left, ← offset] at body
  have header := feeds_header text
  have counted := Cursor.line_of_tokens s.inside
  rw [line, position, List.take_add, drop_headerSize, Text.feeds_append, header, body, reported,
    joined, counted]
  omega

example : ∃ s : Site "function r = ...\n g(x)\nend\n",
    s.cursor.peek = some ⟨.nameFunction, "g", 1⟩ ∧ s.reported = 1 ∧ s.joined = 1 ∧ s.line = 2 :=
  ⟨⟨(Cursor.ofTokens (tokenize "function r =  g(x)\nend\n")).seek 6, by decide +kernel⟩,
    by decide +kernel⟩

theorem reported_eq_line_iff (s : Site text) : s.reported = s.line ↔ s.joined = 0 := by
  have moved := s.line_eq
  omega

theorem reported_eq_line_of_unbroken (s : Site text)
    (unbroken : ∀ t ∈ tokenize (removeHeader text), t.isContinuation = false) : s.reported = s.line :=
  s.reported_eq_line_iff.mpr (joinedLines_of_unbroken unbroken s.offset)

/-- A token that begins with no new character begins with the one at its position. -/
theorem char_at_position {s : Site text} (own : s.isNew = false) {t : Token}
    (here : s.cursor.focus = some t) : text.toList[s.position]? = t.text.toList.head? := by
  obtain ⟨after, whole, begins⟩ := s.normal_split
  obtain ⟨more, rfl⟩ := begins t here
  obtain ⟨rest, cut⟩ := Cursor.focus_split here
  have member : t ∈ tokenize (normalize (removeHeader text)) := by simp [← s.inside, cut]
  rcases filled : t.text.toList with _ | ⟨c, cs⟩
  · exact absurd (String.toList_eq_nil_iff.mp filled) (text_ne_of_mem_tokenize member)
  · have first : (normalize (removeHeader text)).toList[s.offset]? = some c := by
      simp [whole, offset, filled]
    rw [position, ← List.getElem?_drop, drop_headerSize, getElem_normalOrigin own first]
    rfl

end Site

namespace Sighting

/-- The report of a sighting, for the line of its place. -/
def report? (location : Location) (text : String) (s : Sighting) : Option Report :=
  s.note?.map (Note.report (placeOf location text))

/-- The error of a sighting, for the line of its place. -/
def error? (location : Location) (text : String) (s : Sighting) : Option ParseError :=
  s.fault?.map fun e => ⟨placeOf location text e.line, e.fault⟩

end Sighting

/-- The sightings are what is told of a unit: its reports in order, and its error if it has one. -/
structure Parsed.Tells (location : Location) (text : String) (seen : List Sighting) (p : Parsed) :
    Prop where
  reports : p.reports = seen.filterMap (Sighting.report? location text)
  error : ∀ e, p.result = .error e → seen.filterMap (Sighting.error? location text) = [e]
  entity : ∀ a, p.result = .ok a → seen.filterMap (Sighting.error? location text) = []
  holds : ∀ s ∈ seen, s.Holds (tokenize (normalize (removeHeader text)))

theorem tokens_readerOf (text : String) :
    (readerOf text).cursor.tokens = tokenize (normalize (removeHeader text)) :=
  Cursor.tokens_skipSpacing (.ofTokens (tokenize (normalize (removeHeader text))))

theorem tells_ofReader {α : Type} {location : Location} {text : String} (entity : α → Entity)
    {seen : List Sighting} {outcome : Except Failure (α × Reader)}
    (sees : (readerOf text).Sees seen outcome) :
    (Parsed.ofReader (placeOf location text) entity outcome).Tells location text seen := by
  have reports {notes : List Note} (told : notes = ((readerOf text).tell seen).notes) :
      notes.reverse.map (Note.report (placeOf location text)) =
        seen.filterMap (Sighting.report? location text) := by
    rw [told, Reader.tell, readerOf, List.append_nil, List.reverse_reverse, List.map_filterMap]
    rfl
  have errors {faults : List FaultAt} (failed : seen.filterMap Sighting.fault? = faults) :
      seen.filterMap (Sighting.error? location text) =
        faults.map fun e => ⟨placeOf location text e.line, e.fault⟩ := by
    rw [← failed, List.map_filterMap]
    rfl
  rcases outcome with f | ⟨a, r⟩
  · exact {
      reports := reports sees.notes
      error := fun e failed => by
        cases failed
        exact errors sees.faults
      entity := fun a ok => by simp [Parsed.ofReader] at ok
      holds := tokens_readerOf text ▸ sees.holds }
  · exact {
      reports := reports sees.notes
      error := fun e failed => by simp [Parsed.ofReader] at failed
      entity := fun _ _ => errors sees.faults
      holds := tokens_readerOf text ▸ sees.holds }

theorem parseUnit_tells (location : Location) (text name scope : String) :
    (parseUnit location text name scope).Tells location text
      (Sightings.ofUnit location text name scope) := by
  rw [parseUnit, Sightings.ofUnit]
  rcases classify (tokenize text) with _ | _ | _
  · exact tells_ofReader .function (Reader.sees_function scope (some name) (readerOf text))
  · exact tells_ofReader .cls
      (Reader.sees_classDeclaration (placeOf location text) scope name (readerOf text))
  · exact ⟨rfl, nofun, fun _ _ => rfl, nofun⟩

theorem exists_className {location : Location} {text name scope : String} {doc : ClassDoc}
    (read : (parseUnit location text name scope).result = .ok (.cls doc)) :
    ∃ (s : Site text) (declared : String) (behind : Cursor),
      Sightings.className? (readerOf text) = some s.cursor ∧
      s.cursor.dottedName? = some (declared, behind) ∧ doc.location = location.withLine s.reported := by
  rw [parseUnit] at read
  split at read
  · simp at read
  · rcases outcome : (readerOf text).function scope (some name) with f | ⟨f, r⟩ <;>
      simp [outcome, Parsed.ofReader] at read
  · rcases outcome : (readerOf text).classDeclaration (placeOf location text) scope name with f | ⟨c, r⟩
    · simp [outcome, Parsed.ofReader] at read
    · have same : c = doc := by simpa [outcome, Parsed.ofReader] using read
      subst same
      obtain ⟨c, declared, behind, site, inside, names, located⟩ :=
        Reader.location_classDeclaration outcome
      exact ⟨⟨c, inside.trans (tokens_readerOf text)⟩, declared, behind, site, names, located⟩

/-- Every line that is reported about a unit is that of the place which the report is about, in the
order in which reading comes upon these places: the line of the place in the original text, short of
the line ends that joining has cut before it. So it is the right line exactly if joining has cut none
there. -/
theorem parseUnit_reported_lines (location : Location) (text name scope : String) :
    (parseUnit location text name scope).Tells location text
        (Sightings.ofUnit location text name scope) ∧
    (∀ doc, (parseUnit location text name scope).result = .ok (.cls doc) →
      ∃ (s : Site text) (declared : String) (behind : Cursor),
        Sightings.className? (readerOf text) = some s.cursor ∧
        s.cursor.dottedName? = some (declared, behind) ∧
        doc.location = location.withLine s.reported) ∧
    ∀ s : Site text, s.line = s.reported + s.joined ∧ (s.reported = s.line ↔ s.joined = 0) ∧
      ((∀ t ∈ tokenize (removeHeader text), t.isContinuation = false) → s.reported = s.line) ∧
      ∀ t, s.cursor.focus = some t → s.isNew = false →
        text.toList[s.position]? = t.text.toList.head? := by
  refine ⟨parseUnit_tells location text name scope, fun doc read => exists_className read, ?_⟩
  intro s
  refine ⟨s.line_eq, s.reported_eq_line_iff, s.reported_eq_line_of_unbroken, ?_⟩
  intro t here own
  exact s.char_at_position own here

/-- A mismatch of names that is reported for line 1, with the name on line 2 of the text; an unknown
attribute, and a class behind a header, for the lines on which they are. -/
theorem parseUnit_reported_lines_joined :
    (∃ s : Site "function r = ...\n g(x)\nend\n",
      Sightings.ofUnit {} "function r = ...\n g(x)\nend\n" "f" "" =
        [⟨s.cursor, .warning (.nameMismatch "g" "f")⟩] ∧ s.reported = 1 ∧ s.line = 2) ∧
    (Sightings.ofUnit {} "classdef C\nproperties (Colour)\nend\nend\n" "C" "").filterMap
        (Sighting.error? {} "classdef C\nproperties (Colour)\nend\nend\n") =
      [⟨({} : Location).withLine 2, .unknownAttribute "property" "Colour"⟩] ∧
    ∃ (doc : ClassDoc) (s : Site "% Note.\n\nclassdef C\nend\n"),
      (parseUnit {} "% Note.\n\nclassdef C\nend\n" "C" "").result = .ok (.cls doc) ∧
      doc.location = ({} : Location).withLine s.reported := by
  refine ⟨?_, ?_, ?_⟩
  · have seen : ∃ s : Site "function r = ...\n g(x)\nend\n",
        Sightings.ofUnit {} "function r = ...\n g(x)\nend\n" "f" "" =
          [⟨s.cursor, .warning (.nameMismatch "g" "f")⟩] ∧ s.reported = 1 ∧ s.joined = 1 :=
      ⟨⟨(Cursor.ofTokens (tokenize "function r =  g(x)\nend\n")).seek 6, by decide +kernel⟩,
        by decide +kernel⟩
    obtain ⟨s, only, reported, joined⟩ := seen
    have line := ((parseUnit_reported_lines {} "function r = ...\n g(x)\nend\n" "f" "").2.2 s).1
    exact ⟨s, only, reported, by rw [line, reported, joined]⟩
  · exact (parseUnit_reported_lines {} "classdef C\nproperties (Colour)\nend\nend\n" "C" "").1.error _
      (by decide +kernel)
  · have read : ∃ doc, (parseUnit {} "% Note.\n\nclassdef C\nend\n" "C" "").result = .ok (.cls doc) :=
      ⟨{ name := "C", scope := "", attrs := {}, superclasses := [], doc := none
         location := ({} : Location).withLine 3 }, by decide +kernel⟩
    obtain ⟨doc, ok⟩ := read
    obtain ⟨s, _, _, _, _, located⟩ :=
      (parseUnit_reported_lines {} "% Note.\n\nclassdef C\nend\n" "C" "").2.1 doc ok
    exact ⟨doc, s, ok, located⟩

/-- The line of a report is not the line of what it is about: `g` is on line 2. -/
theorem parseUnit_reports_joined_line :
    (parseUnit {} "function r = ...\n g(x)\nend\n" "f" "").reports =
        [.warning ⟨.warning, ({} : Location).withLine 1, (Warning.nameMismatch "g" "f").message⟩] ∧
      (tokenize "function r = ...\n g(x)\nend\n").filter (·.text == "g") = [⟨.name, "g", 2⟩] := by
  decide +kernel

end MatlabOutline
