import CodeEditing.Folding.Basic
import CodeEditing.Lexing.Scan
import CodeEditing.Mode.Outdent

/-! Language modes: what an editor asks of a language.

A mode has a tokenizer and a way of folding. The other hooks keep the indentation of the line before
and do nothing else, unless a language says more (`LanguageMode.plain`). -/
namespace CodeEditing.Mode

open Document (Line TextDocument Delta)
open Lexing (StateId Tokenizer)

/-- A document after an editing hook, with the changes made. -/
structure Changed where
  doc : TextDocument
  deltas : List Delta

def Changed.none (doc : TextDocument) : Changed := ⟨doc, []⟩

/-- `nextIndent` is the indentation of the line behind a line, `asksOutdent` tells whether typing
asks for an outdent of a row and `autoOutdent` does it, `toggleComment` comments rows out or back
in. -/
structure LanguageMode where
  tokenizer : Tokenizer
  folding : Folding.FoldMode
  lineComment : Option String
  nextIndent : StateId → Line → Line → Line
  asksOutdent : StateId → Line → Line → Bool
  autoOutdent : StateId → TextDocument → Nat → Option Changed
  toggleComment : StateId → TextDocument → Nat → Nat → Changed

/-- A mode with nothing but a tokenizer and a way of folding. -/
def LanguageMode.plain (tokenizer : Tokenizer) (folding : Folding.FoldMode) : LanguageMode where
  tokenizer
  folding
  lineComment := none
  nextIndent := fun _ line _ => Document.indent line
  asksOutdent := fun _ _ _ => false
  autoOutdent := fun _ _ _ => none
  toggleComment := fun _ doc _ _ => .none doc

end CodeEditing.Mode
