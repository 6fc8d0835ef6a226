/-! Counts in writing.

A count is a row of decimal digits, with a plus sign in front or without, that fits 64 bits. -/
namespace CodeEditing.Text

/-- The largest count. -/
def maxCount : Nat := 18446744073709551615

/-- The number that decimal digits stand for, behind those that stand for `n`. -/
def digitsValue? (n : Nat) : List Char → Option Nat
  | [] => some n
  | c :: cs =>
    if '0' ≤ c ∧ c ≤ '9' then digitsValue? (10 * n + (c.toNat - '0'.toNat)) cs else none

/-- A count in writing. -/
def count? (cs : List Char) : Option Nat :=
  let digits := match cs with
    | '+' :: more => more
    | _ => cs
  if digits.isEmpty then none else (digitsValue? 0 digits).filter (· ≤ maxCount)

end CodeEditing.Text
