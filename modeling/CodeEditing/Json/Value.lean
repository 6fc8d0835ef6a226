/-! JSON values.

A number is a whole number or a real; a real is held by the 64 bits of its binary form, so equality
of values is decidable and nothing is lost. The members of an object stand in the order they are
printed in; `Value.ofPairs` puts free-form members in the order of their keys, the last of several
with one key counting. -/
namespace CodeEditing.Json

inductive Number where
  | whole (n : Int)
  | real (bits : UInt64)
  deriving Repr, DecidableEq

inductive Value where
  | null
  | bool (b : Bool)
  | number (n : Number)
  | string (s : String)
  | array (items : List Value)
  | object (members : List (String × Value))
  deriving Repr, BEq, Inhabited

/-! ### Pairs in the order of their keys -/

/-- Puts a pair in its place among pairs in the order of their keys; one with the same key gives
way. -/
def insertPair (key : String) (a : α) : List (String × α) → List (String × α)
  | [] => [(key, a)]
  | (k, b) :: ps =>
    if key = k then (key, a) :: ps
    else if key < k then (key, a) :: (k, b) :: ps
    else (k, b) :: insertPair key a ps

/-- Pairs in the order of their keys; of several with one key the last counts. -/
def inKeyOrder (pairs : List (String × α)) : List (String × α) :=
  pairs.foldl (fun ps (k, a) => insertPair k a ps) []

namespace Value

def ofNat (n : Nat) : Value := number (.whole n)

def ofStrings (ss : List String) : Value := array (ss.map string)

def string? : Value → Option String
  | string s => some s
  | _ => none

/-- A whole number that is not negative. -/
def nat? : Value → Option Nat
  | number (.whole (.ofNat n)) => some n
  | _ => none

def members : Value → List (String × Value)
  | object ms => ms
  | _ => []

/-- The member of a name. -/
def get? (v : Value) (name : String) : Option Value := v.members.lookup name

/-- An object with its members in the order of their keys. -/
def ofPairs (pairs : List (String × Value)) : Value := object (inKeyOrder pairs)

mutual

/-- The value with the members of every object in the order of their keys. -/
def sorted : Value → Value
  | array items => array (sortedItems items)
  | object ms => object (inKeyOrder (sortedMembers ms))
  | v => v

def sortedItems : List Value → List Value
  | [] => []
  | v :: vs => v.sorted :: sortedItems vs

def sortedMembers : List (String × Value) → List (String × Value)
  | [] => []
  | (k, v) :: ms => (k, v.sorted) :: sortedMembers ms

end

end Value

end CodeEditing.Json
