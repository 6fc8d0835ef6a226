import CodeEditing.Folding.Marked
import CodeEditing.Lexing.Coffee
import CodeEditing.Mode.Basic

/-! The CoffeeScript mode.

A line behind one that opens a block is indented by one more step, unless the line ends in a comment
or does not start outside of strings and comments. Commenting puts a hash behind the indentation of
a row or takes it away; rows that delimit a block comment stay as they are. -/
namespace CodeEditing.Mode.Coffee

open Document (Line Position Range TextDocument indent body)
open Lexing (StateId)

/-- A row that ends in an opening bracket, an assignment, an arrow or a word that opens a block. -/
def openerText : List Char :=
  ("(?:[(\x7b\\[=:]|[-=]>|\\b(?:else|try|(?:swi|ca)tch" ++
    "(?:\\s+[$A-Za-z_\\x\x7b7f\x7d-\\x\x7bffff\x7d][$\\w\\x\x7b7f\x7d-\\x\x7bffff\x7d]*)?" ++
    "|finally))\\s*$").toList

/-- A row that begins with a word that opens a block. -/
def blockWordText : List Char := "^\\s*(?:else\\b\\s*)?(?:if|for|while|loop)\\b".toList

/-- The word that puts a block on its opening row. -/
def thenText : List Char := "\\bthen\\b".toList

def opener : Matcher := (Matcher.ofText? openerText).getD .never

def blockWord : Matcher := (Matcher.ofText? blockWordText).getD .never

def thenWord : Matcher := (Matcher.ofText? thenText).getD .never

def opensBlock (line : Line) : Bool :=
  opener.occursIn line || (blockWord.occursIn line && !thenWord.occursIn line)

/-- The indentation of the line behind a line, where `tab` is one step. -/
def nextIndent (state : StateId) (line tab : Line) : Line :=
  let row := Lexing.Coffee.tokenizer.tokenize state line
  let inComment := match row.tokens.getLast? with
    | some t => t.kind.isComment
    | none => false
  if !inComment && state = .start && opensBlock line then indent line ++ tab else indent line

/-- Whether a row delimits a block comment: its text begins with three hashes and no more. -/
def delimitsComment (line : Line) : Bool :=
  let text := Text.trimStart line
  "###".toList.isPrefixOf text && !"####".toList.isPrefixOf text

/-- Comments a row out or back in. -/
def toggleRow (doc : TextDocument) (row : Nat) : Changed :=
  let line := doc.line row
  if delimitsComment line then .none doc
  else
    let column := Text.width (indent line)
    let edit :=
      if (body line).head? = some '#' then doc.remove ⟨⟨row, column⟩, ⟨row, column + 1⟩⟩
      else doc.insert ⟨row, column⟩ ['#']
    ⟨edit.doc, edit.deltas⟩

/-- Comments `count` rows from `row` on out or back in. -/
def toggleRows (doc : TextDocument) (row : Nat) : Nat → Changed
  | 0 => .none doc
  | count + 1 =>
    let first := toggleRow doc row
    let rest := toggleRows first.doc (row + 1) count
    ⟨rest.doc, first.deltas ++ rest.deltas⟩

/-- Comments the rows between two out or back in, as far as there are any. -/
def toggleComment (doc : TextDocument) (first last : Nat) : Changed :=
  toggleRows doc first (min (last + 1) doc.lines.length - first)

/-- The CoffeeScript mode. -/
def mode : LanguageMode where
  tokenizer := Lexing.Coffee.tokenizer
  folding := Folding.coffeeMode
  lineComment := some "#"
  nextIndent := nextIndent
  asksOutdent := fun _ line input => Mode.asksOutdent line input
  autoOutdent := fun _ doc row => (Mode.autoOutdent doc row).map fun e => ⟨e.doc, e.deltas⟩
  toggleComment := fun _ doc first last => toggleComment doc first last

end CodeEditing.Mode.Coffee
