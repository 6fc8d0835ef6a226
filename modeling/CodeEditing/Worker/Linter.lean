import CodeEditing.Lint.Brackets
import CodeEditing.Worker.Analysis

/-! The worker that watches the brackets of a CoffeeScript document.

It tells of the first fault behind every change, or that there is none, and answers `lint` with the
fault or null. -/
namespace CodeEditing.Worker

open Document (Remark TextDocument)
open Json (Value)

/-- A remark as it is sent. -/
def payload (a : Remark) : Value := a.toJson.sorted

/-- What is told of a document: an event `error` with the remark on its first fault, or an event
`ok`. -/
def verdict (doc : TextDocument) : WorkerMessage :=
  match Lint.checkBrackets doc.lines with
  | some a => .event "error" (payload a)
  | none => .event "ok" .null

/-- The answer to `lint`. -/
def lintAnswer (doc : TextDocument) : Value :=
  match Lint.checkBrackets doc.lines with
  | some a => payload a
  | none => .null

def linterName : String := "BracketLinter"

/-- The only class there is. When asked for another one it says so. -/
def linter : Analysis Unit where
  start := ()
  init s module classname _ :=
    if classname = linterName then (s, [])
    else (s, [.note s!"{module}.{classname} is not available, running {linterName}"])
  isCall name := name == "lint"
  command s doc name _ :=
    if name = "lint" then (s, lintAnswer doc, []) else (s, .null, [unknownCommand name])
  update s doc := (s, [verdict doc])

end CodeEditing.Worker
