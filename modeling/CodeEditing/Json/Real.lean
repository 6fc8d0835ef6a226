/-! Reals in decimal.

A positive real in binary form is `mantissa · 2^exponent`. Its decimal form has the fewest digits
that read back as the same real: of the numbers that round to it, the one on the coarsest decimal
grid is taken, the nearer one when two lie on it, the even one at equal distance
(`Binary.shortest`). Between 10^-5 and 10^16 the form is positional and has at least one digit
behind the point; outside of it a power of ten is split off, which is written with its sign.

In the other direction a decimal is scaled by exact powers of ten as long as there are any
(`scaleDecimal`). -/
namespace CodeEditing.Json

/-- A positive real as a whole number times a power of two; `low` tells that the gap below it is
half as wide as the gap above. -/
structure Binary where
  mantissa : Nat
  exponent : Int
  low : Bool

/-- The bit above the 52 bits of fraction, which a normal real has without its being written. -/
def hiddenBit : Nat := Nat.pow 2 52

/-- The bit above all others, set in a negative real. -/
def signBit : Nat := Nat.pow 2 63

/-- The parts of the binary form: 52 bits of fraction below 11 bits of exponent. -/
def Binary.ofBits (bits : Nat) : Binary :=
  let fraction : Nat := bits % hiddenBit
  let biased : Nat := bits / hiddenBit % 2048
  if biased = 0 then ⟨fraction, -1074, false⟩
  else ⟨fraction + hiddenBit, (biased : Int) - 1075, fraction = 0 && biased > 1⟩

/-- A decimal `digits · 10^power`. -/
structure Decimal where
  digits : Nat
  power : Int

namespace Binary

/-- The real and the ends of the interval that rounds to it, as multiples of `1 / den`. -/
structure Interval where
  lower : Nat
  value : Nat
  upper : Nat
  den : Nat
  closed : Bool

def interval (b : Binary) : Interval :=
  let up := Nat.pow 2 (b.exponent - 2).toNat
  let den := Nat.pow 2 (2 - b.exponent).toNat
  let below := if b.low then 1 else 2
  ⟨(4 * b.mantissa - below) * up, 4 * b.mantissa * up, (4 * b.mantissa + 2) * up, den,
    b.mantissa % 2 = 0⟩

def Interval.holds (i : Interval) (n : Nat) : Bool :=
  if i.closed then i.lower ≤ n && n ≤ i.upper else i.lower < n && n < i.upper

/-- The multiple of `10^power` nearest to the real among those that round to it. -/
def Interval.onGrid? (i : Interval) (power : Int) : Option Nat :=
  let scale := Nat.pow 10 (-power).toNat
  let i : Interval := {i with
    lower := i.lower * scale
    value := i.value * scale
    upper := i.upper * scale}
  let step := Nat.pow 10 power.toNat * i.den
  let below := i.value / step
  let above := below + 1
  match below > 0 && i.holds (below * step), i.holds (above * step) with
  | false, false => none
  | true, false => some below
  | false, true => some above
  | true, true =>
    let downward := i.value - below * step
    let upward := above * step - i.value
    if downward < upward then some below
    else if upward < downward then some above
    else if below % 2 = 0 then some below else some above

/-- The coarsest grid of `tries` many, from `10^power` downwards, with a number that rounds to the
real. -/
def Interval.coarsest (i : Interval) : Nat → Int → Decimal
  | 0, power => ⟨0, power⟩
  | tries + 1, power =>
    match i.onGrid? power with
    | some d => ⟨d, power⟩
    | none => i.coarsest tries (power - 1)

/-- The decimal with the fewest digits that rounds to the real. -/
def shortest (b : Binary) : Decimal := b.interval.coarsest 650 309

end Binary

/-- The digits of a number in base ten. -/
def digitsOf (n : Nat) : List Char := Nat.toDigits 10 n

/-- A decimal in writing. -/
def Decimal.print (d : Decimal) : List Char :=
  let ds := digitsOf d.digits
  let point := ds.length + d.power
  if 0 ≤ d.power && point ≤ 16 then
    ds ++ List.replicate d.power.toNat '0' ++ ['.', '0']
  else if 0 < point && point ≤ 16 then ds.take point.toNat ++ '.' :: ds.drop point.toNat
  else if -5 < point && point ≤ 0 then
    ['0', '.'] ++ List.replicate (-point).toNat '0' ++ ds
  else
    let power := point - 1
    let tail := 'e' :: (if power < 0 then '-' else '+') :: digitsOf power.natAbs
    match ds with
    | [d] => d :: tail
    | d :: more => d :: '.' :: more ++ tail
    | [] => tail

/-- A finite real in writing, from its binary form. -/
def printReal (bits : UInt64) : List Char :=
  let n := bits.toNat
  let sign := if n / signBit = 1 then ['-'] else []
  let magnitude := n % signBit
  if magnitude = 0 then sign ++ ['0', '.', '0']
  else sign ++ (Binary.ofBits magnitude).shortest.print

/-! ### Reading -/

/-- The largest power of ten that is scaled by in one step. -/
def maxScale : Nat := 308

/-- A power of ten up to the largest one. -/
def powerOfTen (n : Nat) : Float := Float.ofScientific 1 false n

/-- Divides by powers of ten until at most one step is left; what is zero stays zero. -/
def scaleDown (x : Float) : Nat → Nat → Float
  | 0, _ => x
  | steps + 1, n =>
    if n ≤ maxScale then x / powerOfTen n
    else if x == 0 then x
    else scaleDown (x / powerOfTen maxScale) steps (n - maxScale)

/-- The real `digits · 10^power`, unless it is too large to be one. Four divisions bring any number
of 64 bits down to zero. -/
def scaleDecimal (negative : Bool) (digits : Nat) (power : Int) : Option UInt64 :=
  let x := Float.ofNat digits
  let signed (x : Float) : UInt64 := (if negative then -x else x).toBits
  if power < 0 then some (signed (scaleDown x 4 power.natAbs))
  else if power.toNat ≤ maxScale then
    let y := x * powerOfTen power.toNat
    if y.isInf then none else some (signed y)
  else if digits = 0 then some (signed x)
  else none

end CodeEditing.Json
