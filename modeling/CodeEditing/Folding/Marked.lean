import CodeEditing.Folding.Bracket
import CodeEditing.Folding.Indentation

/-! Folds at rows that end in a mark.

A pattern finds the mark at the end of a row, before blanks and a comment. Its first group takes an
opening bracket, which folds up to its partner; its second group takes any other mark, which folds
the deeper rows below. Rows without a mark do not fold, however deep the next row is. -/
namespace CodeEditing.Folding

open Document (Line Range lineAt)

/-- The pattern of a row end with an opening bracket or one of the given marks. -/
def rowEnd (marks : List Char) : List Char :=
  "(?:([\\[\x7b])|(".toList ++ marks ++ "))(?:\\s*)(?:#.*)?$".toList

/-- The marks of CoffeeScript: assignments, arrows and class headers. -/
def coffeeMarks : List Char := "=|=>|->|\\s*class [^#]*".toList

/-- Whether a row carries the mark. -/
def markedWidget (mark : Matcher) (lines : List Line) (row : Nat) : Widget :=
  if mark.occursIn (lineAt lines row) then .start else .none

def markedRange (mark : Matcher) (lines : List Line) (row : Nat) : Option Range :=
  let line := lineAt lines row
  (mark.search line).bind fun found =>
    match found.group? 1 with
    | some g =>
      (firstChar line g).bind fun c =>
        bracketBlock (fun r => markedWidget mark lines r == .start) lines c row
          (columnAt line g.start)
    | none =>
      (found.group? 2).bind fun g => deeperBlock lines row (columnAt line g.stop)

/-- Folds at rows whose end a pattern finds. -/
def markedMode (mark : Matcher) : FoldMode :=
  ⟨fun lines row _ => markedWidget mark lines row, fun lines row _ => markedRange mark lines row⟩

/-- Folds at rows that end in one of the given marks, if they make a pattern. -/
def markedMode? (marks : List Char) : Option FoldMode :=
  (Matcher.ofText? (rowEnd marks)).map markedMode

def coffeeMark : Matcher := (Matcher.ofText? (rowEnd coffeeMarks)).getD .never

def coffeeMode : FoldMode := markedMode coffeeMark

end CodeEditing.Folding
