import CodeEditing.Json.Shape

/-! Remarks on places of a text, and their JSON form. -/
namespace CodeEditing.Document

open Json (Decoder Field Record Value)

inductive Severity where
  | error
  | warning
  | info
  deriving Repr, DecidableEq

/-- A remark on the text at a row and column. -/
structure Remark where
  row : Nat
  column : Nat
  text : String
  severity : Severity
  deriving Repr, DecidableEq

def Severity.name : Severity → String
  | error => "error"
  | warning => "warning"
  | info => "info"

def Severity.decode : Decoder Severity :=
  .oneOf [("error", error), ("warning", warning), ("info", info)]

/-- Without a severity a remark is an error. -/
def Remark.record : Record Remark :=
  ⟨"struct Annotation", ⟨0, 0, "", .error⟩,
    [.needed "row" (.aSize) fun n a => {a with row := n},
      .needed "column" (.aSize) fun n a => {a with column := n},
      .needed "text" .aString fun t a => {a with text := t},
      .optional "type" Severity.decode fun s a => {a with severity := s}]⟩

def Remark.toJson (a : Remark) : Value :=
  .object [("row", .ofNat a.row), ("column", .ofNat a.column), ("text", .string a.text),
    ("type", .string a.severity.name)]

end CodeEditing.Document
