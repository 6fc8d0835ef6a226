import CodeEditing.Folding.Basic

/-! Folds over deeper rows and over runs of comment rows.

Blank rows neither end a block nor belong to its end. -/
namespace CodeEditing.Folding

open Document (Line Position Range lineAt indentLevel?)

/-- The last row of the rows numbered from `row` on that belongs to a block: rows deeper than `level`
up to the first that is not, blank rows passed over. Without one it is `last`. -/
def lastDeeper (level : Nat) (last row : Nat) : List Line → Nat
  | [] => last
  | line :: lines =>
    match indentLevel? line with
    | none => lastDeeper level last (row + 1) lines
    | some l => if l ≤ level then last else lastDeeper level row (row + 1) lines

/-- From a column of a row to the end of the last deeper row below it. -/
def deeperBlock (lines : List Line) (row column : Nat) : Option Range :=
  (indentLevel? (lineAt lines row)).bind fun level =>
    let last := lastDeeper level row (row + 1) (lines.drop (row + 1))
    if last > row then some ⟨⟨row, column⟩, ⟨last, Text.width (lineAt lines last)⟩⟩ else none

/-- From the end of a row to the end of the last deeper row below it. -/
def indentationBlock (lines : List Line) (row : Nat) : Option Range :=
  deeperBlock lines row (Text.width (lineAt lines row))

/-- Whether the first text of a row is a comment mark. -/
def isCommentRow (mark : List Char) (line : Line) : Bool :=
  !mark.isEmpty && mark.isPrefixOf (Text.trimStart line)

/-- The last comment row of the rows numbered from `row` on, blank rows passed over. Without one it
is `last`. -/
def lastComment (mark : List Char) (last row : Nat) : List Line → Nat
  | [] => last
  | line :: lines =>
    match indentLevel? line with
    | none => lastComment mark last (row + 1) lines
    | some _ => if isCommentRow mark line then lastComment mark row (row + 1) lines else last

/-- From the end of a comment row to the end of the last one of its run. -/
def commentBlock (mark : List Char) (lines : List Line) (row : Nat) : Option Range :=
  if isCommentRow mark (lineAt lines row) then
    let last := lastComment mark row (row + 1) (lines.drop (row + 1))
    if last > row then
      some ⟨⟨row, Text.width (lineAt lines row)⟩, ⟨last, Text.width (lineAt lines last)⟩⟩
    else none
  else none

/-- Folding by indentation, where `mark` begins a comment. A comment row starts a fold when the next
row is a comment of its level and the one before is not; any other row when the next one is
deeper. -/
def indentWidget (mark : List Char) (lines : List Line) (row : Nat) : Widget :=
  let line := lineAt lines row
  match indentLevel? line with
  | none => .none
  | some level =>
    let next := lineAt lines (row + 1)
    if isCommentRow mark line then
      let alike (other : Line) : Bool := isCommentRow mark other && indentLevel? other == some level
      let before := match row with
        | 0 => false
        | r + 1 => alike (lineAt lines r)
      if !before && alike next then .start else .none
    else
      match indentLevel? next with
      | some deeper => if deeper > level then .start else .none
      | none => .none

/-- Folds by indentation, and over runs of comment rows where there is none. -/
def indentMode (mark : List Char) : FoldMode :=
  ⟨fun lines row _ => indentWidget mark lines row,
    fun lines row _ => (indentationBlock lines row).or (commentBlock mark lines row)⟩

end CodeEditing.Folding
