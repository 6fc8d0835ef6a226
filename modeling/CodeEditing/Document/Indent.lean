import CodeEditing.Text.Blank
import CodeEditing.Text.Columns

/-! Rows of a text and the white space they begin with.

A row behind the last one is empty. `indent` counts blanks and tabs alone; a row of white space of
any kind is blank and has no level. -/
namespace CodeEditing.Document

/-- A row of a text without its line end. -/
abbrev Line := List Char

/-- The text of a row; there is nothing behind the last row. -/
def lineAt (lines : List Line) (row : Nat) : Line := lines.getD row []

/-- Blanks and tabs. -/
def isIndent (c : Char) : Bool := c == ' ' || c == '\t'

/-- The blanks and tabs a row begins with. -/
def indent (line : Line) : Line := line.takeWhile isIndent

/-- What follows the blanks and tabs a row begins with. -/
def body (line : Line) : Line := line.dropWhile isIndent

theorem indent_append_body (line : Line) : indent line ++ body line = line :=
  List.takeWhile_append_dropWhile

/-- The columns of the white space a row begins with; a blank row has none. -/
def indentLevel? (line : Line) : Option Nat :=
  if Text.allBlank line then none else some (Text.width (indent line))

end CodeEditing.Document
