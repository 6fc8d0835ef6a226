import CodeEditing.Document.Delta
import CodeEditing.Text.Lines
import CodeEditing.Text.Quoted

/-! Documents: texts that are edited by positions and tell of their changes.

A document holds its lines and the numbers of those who listen. Every edit first moves its
positions into the document and onto a character boundary (`clamp`) and then gives the new document,
the position behind the edit, and the changes to tell (`Edit`); `Edit.told` says who hears what.
Inserting nothing and removing nothing is no change. -/
namespace CodeEditing.Document

structure TextDocument where
  lines : List Line
  listeners : List Nat
  nextListener : Nat
  deriving Repr, DecidableEq

/-- A document after an edit, the position behind the edit, and the changes made. -/
structure Edit where
  doc : TextDocument
  position : Position
  deltas : List Delta

namespace TextDocument

def ofText (text : List Char) : TextDocument := ⟨Text.splitLines text, [], 0⟩

/-- The whole text. -/
def value (d : TextDocument) : List Char := Text.joinLines d.lines

def line (d : TextDocument) (row : Nat) : Line := lineAt d.lines row

/-- The position behind the last character. -/
def endPosition (d : TextDocument) : Position :=
  let row := d.lines.length - 1
  ⟨row, Text.width (d.line row)⟩

/-- The nearest position at or before `p` that lies in the document and between two characters. -/
def clamp (d : TextDocument) (p : Position) : Position :=
  if p.row ≥ d.lines.length then d.endPosition
  else ⟨p.row, Text.floorColumn p.column (d.line p.row)⟩

/-! ### Edits -/

/-- The lines that take the place of a row cut in two when pieces are put into the cut. -/
def weave (front back : Line) : List Line → List Line
  | [] => [front ++ back]
  | [piece] => [front ++ piece ++ back]
  | piece :: more => (front ++ piece) :: weave [] back more

/-- The position behind pieces put in at `start`. -/
def behindPieces (start : Position) : List Line → Position
  | [] => start
  | [piece] => ⟨start.row, start.column + Text.width piece⟩
  | _ :: more => behindPieces ⟨start.row + 1, 0⟩ more

/-- Puts a text in at a position. -/
def insert (d : TextDocument) (p : Position) (text : List Char) : Edit :=
  let start := d.clamp p
  if text = [] then ⟨d, start, []⟩
  else
    let pieces := Text.splitLines text
    let line := d.line start.row
    let woven := weave (Text.before start.column line) (Text.after start.column line) pieces
    let stop := behindPieces start pieces
    ⟨{d with lines := d.lines.take start.row ++ woven ++ d.lines.drop (start.row + 1)},
      stop, [⟨.insert, ⟨start, stop⟩, pieces⟩]⟩

/-- The pieces of lines between two positions. -/
def piecesBetween (lines : List Line) (r : Range) : List Line :=
  let first := lineAt lines r.start.row
  let last := lineAt lines r.stop.row
  if r.start.row = r.stop.row then [Text.between r.start.column r.stop.column first]
  else
    Text.after r.start.column first ::
      ((lines.take r.stop.row).drop (r.start.row + 1) ++ [Text.before r.stop.column last])

/-- Takes out the text between two positions. -/
def remove (d : TextDocument) (range : Range) : Edit :=
  let r := Range.ofPoints (d.clamp range.start) (d.clamp range.stop)
  if r.isEmpty then ⟨d, r.start, []⟩
  else
    let joined :=
      Text.before r.start.column (d.line r.start.row) ++ Text.after r.stop.column (d.line r.stop.row)
    ⟨{d with lines := d.lines.take r.start.row ++ joined :: d.lines.drop (r.stop.row + 1)},
      r.start, [⟨.remove, r, piecesBetween d.lines r⟩]⟩

/-- Puts a text in the place of what is between two positions. -/
def replace (d : TextDocument) (range : Range) (text : List Char) : Edit :=
  let removed := d.remove range
  let inserted := removed.doc.insert removed.position text
  {inserted with deltas := removed.deltas ++ inserted.deltas}

/-- Puts a text in the place of the whole. -/
def setValue (d : TextDocument) (text : List Char) : Edit :=
  let removed := d.remove (Range.ofPoints .origin d.endPosition)
  let inserted := removed.doc.insert .origin text
  {inserted with deltas := removed.deltas ++ inserted.deltas}

/-- Makes a change told by another document. -/
def applyDelta (d : TextDocument) (delta : Delta) : Edit :=
  match delta.action with
  | .insert => d.insert delta.range.start (Text.joinLines delta.lines)
  | .remove => d.remove delta.range

/-- Makes changes told by another document, one after the other. -/
def applyDeltas (d : TextDocument) (deltas : List Delta) : TextDocument :=
  deltas.foldl (fun d delta => (d.applyDelta delta).doc) d

/-! ### Listeners -/

/-- Adds a listener; it gets the next number. -/
def listen (d : TextDocument) : TextDocument × Nat :=
  ({d with listeners := d.listeners ++ [d.nextListener], nextListener := d.nextListener + 1},
    d.nextListener)

/-- Removes a listener, if it is one. -/
def unlisten (d : TextDocument) (listener : Nat) : TextDocument × Bool :=
  let left := d.listeners.filter (· != listener)
  ({d with listeners := left}, left.length != d.listeners.length)

/-- A short description for diagnostics. -/
def describe (d : TextDocument) : String :=
  let lines := ", ".intercalate (d.lines.map Text.quoted)
  s!"TextDocument \x7b lines: [{lines}], listeners: {d.listeners.length} \x7d"

end TextDocument

/-- What is told: every change goes to every listener, in the order in which they came. -/
def Edit.told (e : Edit) : List (Nat × Delta) :=
  e.deltas.flatMap fun delta => e.doc.listeners.map fun l => (l, delta)

end CodeEditing.Document
