import CodeEditing.Document.Brackets
import CodeEditing.Pattern.Matching

/-! Folds: stretches of a text that can be hidden behind their first row.

A `FoldMode` tells of a row whether it carries a fold widget and which range a fold there hides.
`foldRanges` lists the folds that start on some row. -/
namespace CodeEditing.Folding

open Document (Line Position Range lineAt)

/-- Whether rows that end a fold carry a widget too. -/
inductive Style where
  | markBegin
  | markBeginEnd
  deriving Repr, DecidableEq

inductive Widget where
  | start
  | stop
  | none
  deriving Repr, DecidableEq

def Style.name : Style → String
  | markBegin => "mark-begin"
  | markBeginEnd => "mark-begin-end"

def Widget.name : Widget → String
  | start => "start"
  | stop => "end"
  | none => "none"

def Style.known : List (String × Style) :=
  [("mark-begin", .markBegin), ("mark-begin-end", .markBeginEnd)]

def Widget.known : List (String × Widget) := [("start", .start), ("end", .stop), ("none", .none)]

structure FoldMode where
  widget : List Line → Nat → Style → Widget
  rangeAt : List Line → Nat → Style → Option Range

/-- The folds that start on some row, in the order of the rows. -/
def foldRanges (mode : FoldMode) (lines : List Line) (style : Style) : List Range :=
  ((List.range lines.length).filter fun row => mode.widget lines row style == .start).filterMap
    fun row => mode.rangeAt lines row style

/-- The column at a place in a row. -/
def columnAt (line : Line) (index : Nat) : Nat := Text.width (line.take index)

/-- The first character a group took. -/
def firstChar (line : Line) (g : Capture) : Option Char :=
  ((line.take g.stop).drop g.start).head?

/-- A range, unless it begins and ends on one row. -/
def overRows (start stop : Position) : Option Range :=
  if stop.row = start.row then none else some ⟨start, stop⟩

/-- From behind the bracket at a column to its partner. Where the partner stands on a row that opens
a fold of its own (`opens`), the range ends with the row before. -/
def bracketBlock (opens : Nat → Bool) (lines : List Line) (bracket : Char) (row column : Nat) :
    Option Range :=
  let start : Position := ⟨row, column + 1⟩
  (Document.findCloser lines bracket start).bind fun stop =>
    if stop.row > start.row && opens stop.row then
      overRows start ⟨stop.row - 1, Text.width (lineAt lines (stop.row - 1))⟩
    else overRows start stop

end CodeEditing.Folding
