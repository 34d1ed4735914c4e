import MatlabOutline.SourceUnit
import MatlabOutline.Proofs.LineEndings.Classes
import MatlabOutline.Proofs.LineEndings.Passes

/-!
A source unit declares the same however its lines end. Main statement: with its lines ended by a carriage
return and a line feed, a text gives an equal entity or the same error, and the same reports
(`parseUnit_line_endings`).
-/

namespace MatlabOutline

namespace SameText

variable {a b : String} (same : SameText a b)

include same

theorem before (text : String) (apart : text.toList.getLast? ≠ some '\r') : SameText (text ++ a) (text ++ b) := by
  rw [SameText, String.toList_append, String.toList_append, Text.unix_append (.inl apart),
    Text.unix_append (.inl apart), same]

theorem after (text : String) (apart : text.toList.head? ≠ some '\n') : SameText (a ++ text) (b ++ text) := by
  rw [SameText, String.toList_append, String.toList_append, Text.unix_append (.inr apart),
    Text.unix_append (.inr apart), same]

end SameText

theorem Fault.Alike.message {f g : Fault} (alike : f.Alike g) : SameText f.message g.message := by
  cases alike with
  | same f => rfl
  | signature found =>
    refine (found.before _ ?_).after _ (by simp)
    rw [String.toList_append, List.getLast?_append]
    simp
  | attributes found =>
    refine (found.before _ ?_).after _ (by simp)
    rw [String.toList_append, List.getLast?_append]
    simp

theorem Warning.Alike.message {w w' : Warning} (alike : w.Alike w') : SameText w.message w'.message := by
  cases alike with
  | same w => rfl
  | token found => exact (found.before _ (by simp)).after _ (by simp)
  | inBlock block found =>
    have named := ((found.before "Unexpected " (by simp)).after " in " (by simp)).after
      block.word (by cases block <;> simp [BlockKind.word])
    exact named.after _ (by simp)

/-- What is told, with each carriage return before a line feed left out of its text. -/
def Report.unix : Report → Report
  | .warning d => .warning { d with text := String.ofList (Text.unix d.text.toList) }
  | .detail message => .detail (String.ofList (Text.unix message.toList))

/-- The entity, and a script without its text. -/
def Entity.withoutBody : Entity → Entity
  | .script s => .script { s with body := "" }
  | e => e

/-- An equal entity but for the text of a script, or the same error at the same place, shown with other line
ends. -/
inductive SameResult : Except ParseError Entity → Except ParseError Entity → Prop
  | ok {a b : Entity} : a.withoutBody = b.withoutBody → SameResult (.ok a) (.ok b)
  | error (location : Location) {f g : Fault} : f.Alike g → SameText f.message g.message →
      SameResult (.error ⟨location, f⟩) (.error ⟨location, g⟩)

structure Parsed.SameOutcome (p q : Parsed) : Prop where
  result : SameResult p.result q.result
  reports : p.reports.map Report.unix = q.reports.map Report.unix

theorem Note.Alike.report {n n' : Note} (alike : n.Alike n') (place : Nat → Location) :
    (n.report place).unix = (n'.report place).unix := by
  cases alike with
  | warning line cause =>
    have message : Text.unix _ = Text.unix _ := cause.message
    simp only [Note.report, Report.unix, message]
  | @skipped line token token' shown =>
    have message := (shown.before ((place line).display ++ ": skipping ") (by simp)).after
      " in methods block" (by simp)
    rw [SameText] at message
    simp only [Note.report, Report.unix, message]

theorem NotesAlike.reports {notes notes' : List Note} (alike : NotesAlike notes notes') (place : Nat → Location) :
    (notes.reverse.map (Note.report place)).map Report.unix =
      (notes'.reverse.map (Note.report place)).map Report.unix := by
  rw [List.map_reverse, List.map_reverse, List.map_reverse, List.map_reverse, List.reverse_inj]
  induction alike with
  | nil => rfl
  | cons first _ ih => rw [List.map_cons, List.map_cons, List.map_cons, List.map_cons, first.report place, ih]

theorem Reader.Outcome.parsed {α : Type} {x y : Except Failure (α × Reader)} (outcome : Outcome x y)
    (place : Nat → Location) (entity : α → Entity) :
    Parsed.SameOutcome (.ofReader place entity x) (.ofReader place entity y) := by
  cases outcome with
  | ok a recoded => exact ⟨.ok rfl, recoded.notes.reports place⟩
  | @error e f _ _ alike notes =>
    refine ⟨?_, notes.reports place⟩
    rw [Parsed.ofReader, Parsed.ofReader]
    simp only [alike.line]
    exact .error _ alike.fault alike.fault.message

section Text

variable {text : String} (plain : '\r' ∉ text.toList)

include plain

theorem readerOf_recoded : (readerOf text).Recoded (readerOf (LineEnding.carriage.rewrite text)) := by
  have body := carriage_not_mem_header plain
  refine ⟨?_, .nil⟩
  rw [readerOf, readerOf, removeHeader_rewrite plain, normalize_rewrite body,
    tokenize_recode (carriage_not_mem_normalize body), Cursor.ofTokens_recode]
  exact Cursor.skipSpacing_recode _

theorem placeOf_rewrite (location : Location) :
    placeOf location (LineEnding.carriage.rewrite text) = placeOf location text := by
  funext line
  rw [placeOf, headerLines_rewrite plain, placeOf]

theorem classify_rewrite :
    classify (tokenize (LineEnding.carriage.rewrite text)) = classify (tokenize text) := by
  have significant : Token.isSignificant ∘ Token.recode = Token.isSignificant := by
    funext t
    simp [Token.isSignificant]
  rw [tokenize_recode plain, classify, List.find?_map, significant, classify]
  cases (tokenize text).find? Token.isSignificant <;> simp

theorem scriptOf_rewrite (name scope : String) :
    (Entity.script (scriptOf text name scope)).withoutBody =
      (Entity.script (scriptOf (LineEnding.carriage.rewrite text) name scope)).withoutBody := by
  simp only [Entity.withoutBody, scriptOf, tokenize_recode plain, Cursor.ofTokens_recode,
    Cursor.skipSpacing_recode, Cursor.commentRun_recode, Docstring.ofComments_recode]

end Text

/-- A text declares the same however its lines end, in every place and under every name. -/
theorem parseUnit_line_endings (text : String) (plain : '\r' ∉ text.toList) (location : Location)
    (name scope : String) :
    Parsed.SameOutcome (parseUnit location text name scope)
      (parseUnit location (LineEnding.carriage.rewrite text) name scope) := by
  have recoded := readerOf_recoded plain
  rw [parseUnit, parseUnit, classify_rewrite plain, placeOf_rewrite plain]
  cases classify (tokenize text) with
  | script =>
    dsimp only
    exact ⟨.ok (scriptOf_rewrite plain name scope), rfl⟩
  | function => exact (recoded.function scope (some name)).parsed _ _
  | cls => exact (recoded.classDeclaration _ scope name).parsed _ _

theorem parseUnit_line_endings_class :
    (parseUnit {} "classdef C\r\n%\x7b\r\nx\r\n%\x7d\r\n3\r\nend\r\n" "C" "pkg").reports.map Report.unix =
        [.warning ⟨.warning, Location.withLine {} 5, (Warning.unexpectedToken "`3`").message⟩] ∧
      SameResult (parseUnit {} "classdef C\n%\x7b\nx\n%\x7d\n3\nend\n" "C" "pkg").result
        (parseUnit {} "classdef C\r\n%\x7b\r\nx\r\n%\x7d\r\n3\r\nend\r\n" "C" "pkg").result := by
  have same := parseUnit_line_endings "classdef C\n%\x7b\nx\n%\x7d\n3\nend\n" (by decide) {} "C" "pkg"
  have ended : LineEnding.carriage.rewrite "classdef C\n%\x7b\nx\n%\x7d\n3\nend\n" =
      "classdef C\r\n%\x7b\r\nx\r\n%\x7d\r\n3\r\nend\r\n" := by decide
  rw [ended] at same
  have told : (parseUnit {} "classdef C\n%\x7b\nx\n%\x7d\n3\nend\n" "C" "pkg").reports.map Report.unix =
      [.warning ⟨.warning, Location.withLine {} 5, (Warning.unexpectedToken "`3`").message⟩] := by
    decide +kernel
  exact ⟨same.reports.symm.trans told, same.result⟩

end MatlabOutline
