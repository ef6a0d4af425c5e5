import ExprLang.Diagnostic.Fault
import ExprLang.Source.Line
import ExprLang.Source.Position
import ExprLang.Text.Blank

/-!
# Diagnostics and their reports

A diagnostic is a fault at a position. Its report shows the line of the source with a caret under
the character that is at fault:

    Error: UnexpectedToken (Expected `Assignment`, found `Integer` (`5`))
    -> shell
      |
    1 | let x 5;
      | ------^

The line is shown without its indentation and without the white space at its end. Columns count
characters, and a caret line can be padded to a limited width only: a report that would need more
does not exist.
-/

set_option autoImplicit false

namespace ExprLang

/-- A fault and the position where it shows. -/
structure Diagnostic where
  fault : Fault
  position : Position
  deriving DecidableEq, Repr

/-- A text padded on its left to at least the given width. -/
def padLeft (fill : Char) (width : Nat) (text : String) : String :=
  String.ofList (List.leftpad width fill text.toList)

namespace LinePosition

/-- The number of characters before the position, or of bytes if it is inside a character. -/
def characterColumn (line : LinePosition) : Nat :=
  match Text.dropBytes? line.column line.text.toList with
  | some rest => line.text.toList.length - rest.length
  | none => line.column

/-- The number of blanks that the line is indented by. -/
def indentation (line : LinePosition) : Nat := (line.text.toList.takeWhile Text.isIndent).length

/-- The line as it is shown. -/
def shown (line : LinePosition) : String :=
  String.ofList (Text.trimEnd (line.text.toList.dropWhile Text.isIndent))

/-- The width of what ends in the caret: the columns up to the position, counted in `shown`. -/
def caretWidth (line : LinePosition) : Nat := line.characterColumn - line.indentation + 1

/-- The margin beside a line that has no number of its own. -/
def margin (line : LinePosition) : String := padLeft ' ' ((toString line.number).length + 2) "|"

/-- The lines of a report that show the source: an empty one, the line itself and the caret. -/
def excerpt (line : LinePosition) : String :=
  line.margin ++ "\n" ++ toString line.number ++ " | " ++ line.shown ++ "\n" ++
    line.margin ++ " " ++ padLeft '-' line.caretWidth "^"

end LinePosition

namespace Diagnostic

/-- The diagnostic in one line. -/
def text (d : Diagnostic) : String :=
  d.fault.message ++ " at " ++ d.position.file ++ ":" ++ toString d.position.offset

/-- The first line of a report. -/
def headline (d : Diagnostic) : String :=
  match d.fault.tip with
  | .none => "Error: " ++ d.fault.name
  | .suggestion text => "Error: " ++ d.fault.name ++ " (" ++ text ++ ")"

/-- The greatest width that a caret can be padded to. -/
def maxCaretWidth : Nat := 65535

/--
The report of a diagnostic on a source, without an excerpt if the position is behind its end.
There is none if the caret is too far to the right.
-/
def report? (d : Diagnostic) (source : String) : Option String :=
  let heading := d.headline ++ "\n-> " ++ d.position.file ++ "\n"
  match lineAt? source d.position.offset with
  | none => some heading
  | some line =>
    if line.caretWidth ≤ maxCaretWidth then some (heading ++ line.excerpt) else none

theorem report?_eq_none_iff {d : Diagnostic} {source : String} :
    d.report? source = none ↔
      ∃ line, lineAt? source d.position.offset = some line ∧ maxCaretWidth < line.caretWidth := by
  unfold report?
  split <;> simp_all

end Diagnostic

end ExprLang
