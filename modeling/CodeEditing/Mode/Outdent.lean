import CodeEditing.Document.Basic
import CodeEditing.Document.Brackets

/-! Taking a closing brace back to the level of its opening one. -/
namespace CodeEditing.Mode

open Document (Line Position Range TextDocument Edit lineAt)

/-- Whether typing `input` on a row asks for an outdent: the row is blank but not empty, and the
input begins with a closing brace. -/
def asksOutdent (line input : Line) : Bool :=
  !line.isEmpty && Text.allBlank line && (Text.trimStart input).head? == some '\x7d'

/-- The column behind a closing brace that is the first text of a row. -/
def closerColumn (line : Line) : Option Nat :=
  if (Text.trimStart line).head? = some '\x7d' then
    some (Text.width (line.takeWhile Text.isBlank) + 1)
  else none

/-- The indentation of the row that opens the brace a row begins with, when it is another row. -/
def outdentOf (lines : List Line) (row : Nat) : Option Line :=
  (closerColumn (lineAt lines row)).bind fun column =>
    (Document.findPartner lines ⟨row, column⟩).bind fun opener =>
      if opener.row = row then none else some (Document.indent (lineAt lines opener.row))

/-- Gives a row the indentation its closing brace should have, if it has another. -/
def autoOutdent (doc : TextDocument) (row : Nat) : Option Edit :=
  (outdentOf doc.lines row).bind fun indent =>
    (closerColumn (doc.line row)).bind fun column =>
      if Text.before (column - 1) (doc.line row) = indent then none
      else some (doc.replace ⟨⟨row, 0⟩, ⟨row, column - 1⟩⟩ indent)

end CodeEditing.Mode
