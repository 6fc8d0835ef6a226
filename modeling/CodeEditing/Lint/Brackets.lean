import CodeEditing.Document.Remark
import CodeEditing.Document.Brackets
import CodeEditing.Lexing.Coffee

/-! The first fault in the brackets of a CoffeeScript text.

Only brackets of bracket tokens count, so those in strings, patterns and comments do not. An opening
bracket waits for its partner; a closing one must be the partner of the bracket opened last. When
every closing bracket has found its partner, the earliest bracket still open is at fault. -/
namespace CodeEditing.Lint

open Document (Remark Cell Line Position closerOf?)
open Lexing (Row Token)

/-! ### The brackets of a text -/

/-- The characters of the bracket tokens of a row. -/
def bracketCellsOf (row : Nat) (tokens : List Token) : List Cell :=
  (tokens.filter fun t => t.kind.isOpenParen || t.kind.isCloseParen).flatMap fun t =>
    Document.cellsOf row t.start t.value

/-- The characters of the bracket tokens of rows numbered from `row` on. -/
def bracketCellsFrom (row : Nat) : List Row → List Cell
  | [] => []
  | r :: rs => bracketCellsOf row r.tokens ++ bracketCellsFrom (row + 1) rs

/-- The brackets of a text, in reading order. -/
def bracketCells (lines : List Line) : List Cell :=
  bracketCellsFrom 0 (Lexing.Coffee.tokenizer.tokenizeLines lines)

/-! ### The first fault -/

inductive BracketFault where
  | unmatched (found : Cell)
  | mismatched (expected : Char) (found : Cell)
  | unclosed (opener : Cell) (expected : Char)
  deriving Repr, DecidableEq

/-- The first fault in brackets behind those of `opened`, which wait for their partner, the latest
first, each with the bracket that closes it. -/
def seekFault : List (Cell × Char) → List Cell → Option BracketFault
  | opened, [] => opened.getLast?.map fun (cell, closer) => .unclosed cell closer
  | opened, cell :: cells =>
    match closerOf? cell.char with
    | some closer => seekFault ((cell, closer) :: opened) cells
    | none =>
      match opened with
      | [] => some (.unmatched cell)
      | (_, expected) :: more =>
        if expected = cell.char then seekFault more cells else some (.mismatched expected cell)

def bracketFault (lines : List Line) : Option BracketFault := seekFault [] (bracketCells lines)

/-! ### In words -/

namespace BracketFault

def place : BracketFault → Position
  | unmatched cell | mismatched _ cell | unclosed cell _ => cell.at_

def message : BracketFault → String
  | unmatched cell => s!"unmatched '{cell.char}'"
  | mismatched expected cell => s!"expected '{expected}' but found '{cell.char}'"
  | unclosed cell expected => s!"'{cell.char}' is never closed, expected '{expected}'"

def remark (f : BracketFault) : Remark := ⟨f.place.row, f.place.column, f.message, .error⟩

end BracketFault

/-- The remark on the first fault, if there is one. -/
def checkBrackets (lines : List Line) : Option Remark :=
  (bracketFault lines).map BracketFault.remark

end CodeEditing.Lint
