import CodeEditing.Json.Real
import CodeEditing.Json.Value

/-! JSON in writing, on one line or indented.

Strings escape the quote, the backslash and the controls; everything else stands for itself.
Members are written in the order they have. -/
namespace CodeEditing.Json

/-- A hexadecimal digit in lower case. -/
def hexDigit (n : Nat) : Char := Nat.digitChar n

/-- One character inside a string. -/
def escapeChar (c : Char) : List Char :=
  if c = '"' then ['\\', '"']
  else if c = '\\' then ['\\', '\\']
  else if c = '\x08' then ['\\', 'b']
  else if c = '\x0c' then ['\\', 'f']
  else if c = '\n' then ['\\', 'n']
  else if c = '\r' then ['\\', 'r']
  else if c = '\t' then ['\\', 't']
  else if c.toNat < 32 then
    ['\\', 'u', '0', '0', hexDigit (c.toNat / 16), hexDigit (c.toNat % 16)]
  else [c]

/-- A string between quotes. -/
def printString (s : String) : List Char := '"' :: s.toList.flatMap escapeChar ++ ['"']

def printInt : Int → List Char
  | .ofNat n => digitsOf n
  | .negSucc n => '-' :: digitsOf (n + 1)

def Number.print : Number → List Char
  | whole n => printInt n
  | real bits => printReal bits

namespace Value

/-! ### On one line -/

mutual

def print : Value → List Char
  | null => "null".toList
  | bool true => "true".toList
  | bool false => "false".toList
  | number n => n.print
  | string s => printString s
  | array items => '[' :: printItems items ++ [']']
  | object ms => '\x7b' :: printMembers ms ++ ['\x7d']

def printItems : List Value → List Char
  | [] => []
  | [v] => v.print
  | v :: vs => v.print ++ ',' :: printItems vs

def printMembers : List (String × Value) → List Char
  | [] => []
  | [(k, v)] => printString k ++ ':' :: v.print
  | (k, v) :: ms => printString k ++ ':' :: v.print ++ ',' :: printMembers ms

end

/-- The text on one line. -/
def text (v : Value) : String := String.ofList v.print

/-! ### Indented -/

/-- A new line, indented by two blanks for each level. -/
def newLine (level : Nat) : List Char := '\n' :: List.replicate (2 * level) ' '

mutual

/-- Every item and every member on a line of its own; what has none stays on its line. -/
def indented (level : Nat) : Value → List Char
  | array [] => ['[', ']']
  | array (v :: vs) => '[' :: indentedItems (level + 1) (v :: vs) ++ newLine level ++ [']']
  | object [] => ['\x7b', '\x7d']
  | object (m :: ms) =>
    '\x7b' :: indentedMembers (level + 1) (m :: ms) ++ newLine level ++ ['\x7d']
  | null => "null".toList
  | bool true => "true".toList
  | bool false => "false".toList
  | number n => n.print
  | string s => printString s

def indentedItems (level : Nat) : List Value → List Char
  | [] => []
  | [v] => newLine level ++ v.indented level
  | v :: vs => newLine level ++ v.indented level ++ ',' :: indentedItems level vs

def indentedMembers (level : Nat) : List (String × Value) → List Char
  | [] => []
  | [(k, v)] => newLine level ++ printString k ++ ':' :: ' ' :: v.indented level
  | (k, v) :: ms =>
    newLine level ++ printString k ++ ':' :: ' ' :: v.indented level ++ ',' ::
      indentedMembers level ms

end

/-- The text over several lines. -/
def indentedText (v : Value) : String := String.ofList (v.indented 0)

end Value

end CodeEditing.Json
