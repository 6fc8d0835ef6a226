import CodeEditing.Lexing.Kind
import CodeEditing.Text.Columns

/-! Tokens: classified stretches of a line.

`covers` says that tokens lie side by side from a column on; `Row` holds the tokens of one line
with the state the next line starts in. -/
namespace CodeEditing.Lexing

/-- A stretch of a line: its kind, its text and the column it starts at. -/
structure Token where
  kind : Kind
  value : List Char
  start : Nat
  deriving Repr, DecidableEq

/-- The column behind the token. -/
def Token.stop (t : Token) : Nat := t.start + Text.width t.value

/-- The text of a run of tokens. -/
def textOf (tokens : List Token) : List Char := tokens.flatMap (·.value)

@[simp] theorem textOf_nil : textOf [] = [] := rfl

@[simp] theorem textOf_cons (t : Token) (ts : List Token) :
    textOf (t :: ts) = t.value ++ textOf ts := rfl

@[simp] theorem textOf_append (a b : List Token) : textOf (a ++ b) = textOf a ++ textOf b := by
  simp [textOf]

/-- Tokens with text, each beginning where the one before ends, the first at `column`. -/
def Tiles (column : Nat) : List Token → Prop
  | [] => True
  | t :: ts => t.start = column ∧ t.value ≠ [] ∧ Tiles t.stop ts

/-- A state of a rule table, by its place in the table. -/
structure StateId where
  index : Nat
  deriving Repr, DecidableEq

/-- Every text starts in the first state. -/
def StateId.start : StateId := ⟨0⟩

/-- The tokens of a line and the state the next line starts in. -/
structure Row where
  tokens : List Token
  endState : StateId
  deriving Repr, DecidableEq

end CodeEditing.Lexing
