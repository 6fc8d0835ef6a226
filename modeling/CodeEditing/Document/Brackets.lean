import CodeEditing.Document.Indent
import CodeEditing.Document.Position

/-! Bracket partners.

The characters of a text are read as cells, each at its position. The partner of a bracket is the
first bracket of the opposite sense, in reading order for an opening one and against it for a
closing one, at which those of the two senses seen so far are in balance (`seekPartner`). Brackets
of other kinds do not count. -/
namespace CodeEditing.Document

/-- The closing bracket of an opening one. -/
def closerOf? : Char → Option Char
  | '(' => some ')'
  | '[' => some ']'
  | '\x7b' => some '\x7d'
  | _ => none

/-- The opening bracket of a closing one. -/
def openerOf? : Char → Option Char
  | ')' => some '('
  | ']' => some '['
  | '\x7d' => some '\x7b'
  | _ => none

/-- A character and where it stands. -/
structure Cell where
  at_ : Position
  char : Char
  deriving Repr, DecidableEq

/-- The cells of a piece of a row that begins at a column. -/
def cellsOf (row : Nat) : Nat → Line → List Cell
  | _, [] => []
  | column, c :: cs => ⟨⟨row, column⟩, c⟩ :: cellsOf row (column + c.utf8Size) cs

/-- The cells of rows numbered from `row` on. -/
def cellsFrom (row : Nat) : List Line → List Cell
  | [] => []
  | line :: lines => cellsOf row 0 line ++ cellsFrom (row + 1) lines

/-- The cells behind a position, in reading order. -/
def cellsBehind (lines : List Line) (p : Position) : List Cell :=
  match lines.drop p.row with
  | [] => []
  | line :: more =>
    cellsOf p.row (Text.floorColumn p.column line) (Text.after p.column line) ++
      cellsFrom (p.row + 1) more

/-- The cells before a position, against reading order. -/
def cellsBefore (lines : List Line) (p : Position) : List Cell :=
  (cellsFrom 0 (lines.take p.row) ++
    cellsOf p.row 0 (Text.before p.column (lineAt lines p.row))).reverse

/-- The first cell that balances `depth` open brackets. -/
def seekPartner (same partner : Char) : Nat → List Cell → Option Position
  | _, [] => none
  | depth, cell :: cells =>
    if cell.char = same then seekPartner same partner (depth + 1) cells
    else if cell.char = partner then
      if depth ≤ 1 then some cell.at_ else seekPartner same partner (depth - 1) cells
    else seekPartner same partner depth cells

/-- The bracket that closes `opener`, behind a position that lies behind the opening one. -/
def findCloser (lines : List Line) (opener : Char) (p : Position) : Option Position :=
  (closerOf? opener).bind fun closer => seekPartner opener closer 1 (cellsBehind lines p)

/-- The bracket that opens `closer`, where the position lies one column behind the closing one. -/
def findOpener (lines : List Line) (closer : Char) (p : Position) : Option Position :=
  (openerOf? closer).bind fun opener =>
    seekPartner closer opener 1 (cellsBefore lines ⟨p.row, p.column - 1⟩)

/-- The partner of the bracket before a position. -/
def findPartner (lines : List Line) (p : Position) : Option Position :=
  match (Text.before p.column (lineAt lines p.row)).getLast? with
  | none => none
  | some c =>
    if (closerOf? c).isSome then findCloser lines c p
    else if (openerOf? c).isSome then findOpener lines c p
    else none

end CodeEditing.Document
