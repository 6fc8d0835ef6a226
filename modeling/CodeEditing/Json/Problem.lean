import CodeEditing.Json.Reader
import CodeEditing.Text.Quoted

/-! Why a text or a value is not what was asked for.

Either the text is at fault (`Flaw`), or what stands there has another shape than the one asked for
(`Mismatch`). A mismatch found in a text has a place; one found in a value that is already held has
none. `Problem.message` puts it into words, with line and column when there is a place. -/
namespace CodeEditing.Json

/-- What was found in the place of something else. -/
inductive Met where
  | null
  | bool (b : Bool)
  | whole (n : Int)
  | real (bits : UInt64)
  | string (s : String)
  | list
  | object
  deriving Repr, DecidableEq

def Met.describe : Met → String
  | null => "null"
  | bool b => s!"boolean `{b}`"
  | whole n => s!"integer `{n}`"
  | real bits => s!"floating point `{String.ofList (printReal bits)}`"
  | string s => s!"string {Text.quotedName s}"
  | list => "sequence"
  | object => "map"

def Met.ofNumber : Number → Met
  | .whole n => whole n
  | .real bits => real bits

inductive Mismatch where
  | wrongType (met : Met) (wanted : String)
  | wrongValue (met : Met) (wanted : String)
  | wrongLength (length : Nat) (wanted : String)
  | missingField (name : String)
  | repeatedField (name : String)
  | unknownVariant (name : String) (known : List String)
  | noVariant (name : String)
  deriving Repr, DecidableEq

/-- Names between backquotes with commas between them. -/
def listed (names : List String) : String :=
  ", ".intercalate (names.map fun n => s!"`{n}`")

def Mismatch.message : Mismatch → String
  | wrongType met wanted => s!"invalid type: {met.describe}, expected {wanted}"
  | wrongValue met wanted => s!"invalid value: {met.describe}, expected {wanted}"
  | wrongLength length wanted => s!"invalid length {length}, expected {wanted}"
  | missingField name => s!"missing field `{name}`"
  | repeatedField name => s!"duplicate field `{name}`"
  | unknownVariant name known =>
    let expected := match known with
      | [] => "there are no variants"
      | [a] => s!"expected `{a}`"
      | [a, b] => s!"expected `{a}` or `{b}`"
      | _ => s!"expected one of {listed known}"
    s!"unknown variant `{name}`, {expected}"
  | noVariant name => s!"data did not match any variant of untagged enum {name}"

inductive Problem where
  | flaw (f : Flaw)
  | mismatch (m : Mismatch) (offset : Option Nat)
  deriving Repr, DecidableEq

/-- The three ways to fail: the text ended too early, is not JSON, or has another shape. -/
inductive Category where
  | endOfText
  | notJson
  | otherShape
  deriving Repr, DecidableEq

namespace Problem

def category : Problem → Category
  | flaw f => if f.fault.isEnd then .endOfText else .notJson
  | mismatch _ _ => .otherShape

/-- The wording, with the place in the text the problem was found in. -/
def message (text : List UInt8) : Problem → String
  | flaw f => placed f.fault.message f.offset
  | mismatch m (some offset) => placed m.message offset
  | mismatch m none => m.message
where
  placed (what : String) (offset : Nat) : String :=
    let (line, column) := lineColumn text offset
    s!"{what} at line {line} column {column}"

end Problem

end CodeEditing.Json
