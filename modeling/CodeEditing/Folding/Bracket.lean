import CodeEditing.Folding.Basic
import CodeEditing.Pattern.Reader
import CodeEditing.Text.Find

/-! Folds between brackets and in block comments.

Two patterns mark the rows. In the start marker the first group takes the opening bracket; without
it the match ends behind the opening of a block comment. In the stop marker the first group takes
the closing bracket and the second the end of a block comment. -/
namespace CodeEditing.Folding

open Document (Line Position Range lineAt)

structure BracketMarkers where
  start : Matcher
  stop : Matcher

namespace BracketMarkers

/-- A bracket or brace left open at the end of the row, or a block comment at its beginning. -/
def cstyleStart : List Char := "(\\\x7b|\\[)[^\\\x7d\\]]*$|^\\s*(/\\*)".toList

/-- A closing bracket or brace before any opening one, or the end of a block comment. -/
def cstyleStop : List Char := "^[^\\[\\\x7b]*(\\\x7d|\\])|^[\\s\\*]*(\\*/)".toList

/-- The markers of the languages with braces. -/
def cstyle : BracketMarkers :=
  ⟨(Matcher.ofText? cstyleStart).getD .never, (Matcher.ofText? cstyleStop).getD .never⟩

def widget (m : BracketMarkers) (lines : List Line) (row : Nat) (style : Style) : Widget :=
  let line := lineAt lines row
  if m.start.occursIn line then .start
  else if style = .markBeginEnd && m.stop.occursIn line then .stop
  else .none

/-- From behind the opening bracket to before the closing one, which ends at `column`. -/
def blockBefore (lines : List Line) (bracket : Char) (row column : Nat) : Option Range :=
  (Document.findOpener lines bracket ⟨row, column⟩).bind fun opener =>
    overRows ⟨opener.row, opener.column + 1⟩ ⟨row, column - 1⟩

/-- The first end of a comment in rows numbered from `row` on, the first one read from its column
`column` on. -/
def seekCommentEnd (row column : Nat) : List Line → Option Position
  | [] => none
  | line :: lines =>
    let rest := Text.after column line
    match Text.firstIndexOf ['*', '/'] rest with
    | some n => some ⟨row, column + Text.width (rest.take n)⟩
    | none => seekCommentEnd (row + 1) 0 lines

/-- A comment from behind its opening. -/
def commentAfter (lines : List Line) (start : Position) : Option Range :=
  (seekCommentEnd start.row start.column (lines.drop start.row)).bind (overRows start)

/-- The position behind the last opening of a comment in a row. -/
def lastOpening? (line : Line) (row : Nat) : Option Position :=
  (Text.lastIndexOf ['/', '*'] line).map fun n => ⟨row, Text.width (line.take n) + 2⟩

/-- A comment up to before its end. It begins at the last opening in front of it; rows beyond the
last one are empty. -/
def commentBefore (lines : List Line) (stop : Position) : Option Range :=
  let here := lastOpening? (Text.before stop.column (lineAt lines stop.row)) stop.row
  let above := (lines.take stop.row).zipIdx.reverse
  (here.or (above.findSome? fun (line, row) => lastOpening? line row)).bind fun start =>
    overRows start stop

def rangeAt (m : BracketMarkers) (lines : List Line) (row : Nat) (style : Style) :
    Option Range :=
  let line := lineAt lines row
  match m.start.search line with
  | some found =>
    match found.group? 1 with
    | some g =>
      (firstChar line g).bind fun c =>
        bracketBlock (fun r => m.widget lines r .markBegin == .start) lines c row
          (columnAt line g.start)
    | none => commentAfter lines ⟨row, columnAt line found.stop⟩
  | none =>
    if style = .markBeginEnd then
      (m.stop.search line).bind fun found =>
        match found.group? 1 with
        | some g =>
          (firstChar line g).bind fun c => blockBefore lines c row (columnAt line g.stop)
        | none =>
          (found.group? 2).bind fun g => commentBefore lines ⟨row, columnAt line g.start⟩
    else none

def mode (m : BracketMarkers) : FoldMode := ⟨m.widget, m.rangeAt⟩

end BracketMarkers

end CodeEditing.Folding
