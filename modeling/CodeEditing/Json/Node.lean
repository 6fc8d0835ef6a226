import CodeEditing.Json.Value

/-! JSON as it stands in a text.

A `Node` is a value together with the place it takes, counted in bytes. It also holds what is wrong
with the text, at the place where a reader meets it: a text that breaks off leaves a `broken` node
or an open end of a list, and a string or number that cannot be taken over carries its flaw. A
reader who only passes over a value does not mind such flaws, and breaks in it show to him in his
own way, so a break has two sides (`Break`).

Whoever wants a value of some shape goes through the nodes in the order of the text and so meets
faults of the text and mismatches of the shape in that order. -/
namespace CodeEditing.Json

/-! ### Faults of a text -/

inductive Fault where
  | endInValue
  | endInList
  | endInObject
  | endInString
  | colonExpected
  | listGoesOn
  | objectGoesOn
  | wordExpected
  | valueExpected
  | badEscape
  | badNumber
  | numberTooLarge
  | badCodePoint
  | controlInString
  | keyExpected
  | loneSurrogate
  | halfPair
  | commaAtEnd
  | textAtEnd
  | tooDeep
  deriving Repr, DecidableEq

namespace Fault

def message : Fault → String
  | endInValue => "EOF while parsing a value"
  | endInList => "EOF while parsing a list"
  | endInObject => "EOF while parsing an object"
  | endInString => "EOF while parsing a string"
  | colonExpected => "expected `:`"
  | listGoesOn => "expected `,` or `]`"
  | objectGoesOn => "expected `,` or `\x7d`"
  | wordExpected => "expected ident"
  | valueExpected => "expected value"
  | badEscape => "invalid escape"
  | badNumber => "invalid number"
  | numberTooLarge => "number out of range"
  | badCodePoint => "invalid unicode code point"
  | controlInString => "control character (\\u0000-\\u001F) found while parsing a string"
  | keyExpected => "key must be a string"
  | loneSurrogate => "lone leading surrogate in hex escape"
  | halfPair => "unexpected end of hex escape"
  | commaAtEnd => "trailing comma"
  | textAtEnd => "trailing characters"
  | tooDeep => "recursion limit exceeded"

/-- Whether the text only broke off too early. -/
def isEnd : Fault → Bool
  | endInValue | endInList | endInObject | endInString => true
  | _ => false

end Fault

/-- A fault and the number of bytes read when it showed. -/
structure Flaw where
  fault : Fault
  offset : Nat
  deriving Repr, DecidableEq

/-- A place where reading cannot go on: what shows to a reader who takes the value over, and to one
who passes over it. -/
structure Break where
  taking : Flaw
  passing : Flaw
  deriving Repr, DecidableEq

/-- A break that shows the same to both. -/
def Break.both (fault : Fault) (offset : Nat) : Break := ⟨⟨fault, offset⟩, ⟨fault, offset⟩⟩

/-! ### Nodes -/

/-- Offsets of the first byte of a value and of the byte behind it. -/
structure Extent where
  start : Nat
  stop : Nat
  deriving Repr, DecidableEq

/-- The key of a member: its text, the flaw of a missing colon behind it, the place behind it, and
how many bytes a reader has read who gives up on the object right there. -/
structure MemberKey where
  text : Except Flaw String
  colon : Option Flaw
  stop : Nat
  givenUp : Nat

/-- A value in a text. `broken` knows the first byte, `array` and `object` whether the list of their
parts breaks off. -/
inductive Node where
  | null (place : Extent)
  | bool (place : Extent) (b : Bool)
  | number (place : Extent) (n : Except Flaw Number)
  | string (place : Extent) (s : Except Flaw String)
  | array (place : Extent) (items : List Node) (ending : Option Break)
  | object (place : Extent) (members : List (MemberKey × Node)) (ending : Option Break)
  | broken (start : Nat) (first : Option UInt8) (b : Break)

namespace Node

def start : Node → Nat
  | null p | bool p _ | number p _ | string p _ | array p _ _ | object p _ _ => p.start
  | broken start _ _ => start

/-! ### Passing over a value -/

mutual

/-- The flaw that shows to a reader who passes over the value. -/
def passed : Node → Option Flaw
  | array _ items ending =>
    match passedItems items with
    | some f => some f
    | none => ending.map (·.passing)
  | object _ members ending =>
    match passedMembers members with
    | some f => some f
    | none => ending.map (·.passing)
  | broken _ _ b => some b.passing
  | null _ | bool _ _ | number _ _ | string _ _ => none

def passedItems : List Node → Option Flaw
  | [] => none
  | n :: ns =>
    match n.passed with
    | some f => some f
    | none => passedItems ns

def passedMembers : List (MemberKey × Node) → Option Flaw
  | [] => none
  | (k, n) :: ms =>
    match k.colon with
    | some f => some f
    | none =>
      match n.passed with
      | some f => some f
      | none => passedMembers ms

end

/-! ### Taking over a value of any shape -/

/-- How many values may lie inside each other, counting the outermost one. -/
def maxDepth : Nat := 128

mutual

/-- The value, or the first flaw. `depth` is how many levels are left. -/
def value (depth : Nat) : Node → Except Flaw Value
  | null _ => .ok .null
  | bool _ b => .ok (.bool b)
  | number _ n => n.map .number
  | string _ s => s.map .string
  | array place items ending =>
    if depth ≤ 1 then .error ⟨.tooDeep, place.start + 1⟩
    else
      match valueItems (depth - 1) items with
      | .error f => .error f
      | .ok vs =>
        match ending with
        | some b => .error b.taking
        | none => .ok (.array vs)
  | object place members ending =>
    if depth ≤ 1 then .error ⟨.tooDeep, place.start + 1⟩
    else
      match valueMembers (depth - 1) members with
      | .error f => .error f
      | .ok ms =>
        match ending with
        | some b => .error b.taking
        | none => .ok (.ofPairs ms)
  | broken _ _ b => .error b.taking

def valueItems (depth : Nat) : List Node → Except Flaw (List Value)
  | [] => .ok []
  | n :: ns =>
    match n.value depth with
    | .error f => .error f
    | .ok v => (valueItems depth ns).map (v :: ·)

def valueMembers (depth : Nat) : List (MemberKey × Node) → Except Flaw (List (String × Value))
  | [] => .ok []
  | (k, n) :: ms =>
    match k.text, k.colon with
    | .error f, _ => .error f
    | .ok _, some f => .error f
    | .ok key, none =>
      match n.value depth with
      | .error f => .error f
      | .ok v => (valueMembers depth ms).map ((key, v) :: ·)

end

/-! ### Nodes of a value that has no text -/

mutual

/-- The node of a value, as if it stood in a text without any extent. -/
def ofValue : Value → Node
  | .null => null ⟨0, 0⟩
  | .bool b => bool ⟨0, 0⟩ b
  | .number n => number ⟨0, 0⟩ (.ok n)
  | .string s => string ⟨0, 0⟩ (.ok s)
  | .array vs => array ⟨0, 0⟩ (ofItems vs) none
  | .object ms => object ⟨0, 0⟩ (ofMembers ms) none

def ofItems : List Value → List Node
  | [] => []
  | v :: vs => ofValue v :: ofItems vs

def ofMembers : List (String × Value) → List (MemberKey × Node)
  | [] => []
  | (k, v) :: ms => (⟨.ok k, none, 0, 0⟩, ofValue v) :: ofMembers ms

end

end Node

end CodeEditing.Json
