import CodeEditing.Json.Node
import CodeEditing.Json.Real

/-! Reading JSON from bytes.

The reader follows the text to where it ends or breaks off and gives the node that stands there,
with a cursor behind it if reading can go on (`readNode`). It leaves it to those who use the node
what they mind: strings are followed by their escapes alone, and their text is worked out apart;
numbers are followed by their digits. -/
namespace CodeEditing.Json

/-- A place in a text: how many bytes lie before it, and those that follow. -/
structure Cursor where
  offset : Nat
  rest : List UInt8

namespace Cursor

def isSpace (b : UInt8) : Bool := b == 0x20 || b == 0x0a || b == 0x09 || b == 0x0d

/-- Behind the blanks that stand here. -/
def skipSpace (c : Cursor) : Cursor :=
  let blanks := c.rest.takeWhile isSpace
  ⟨c.offset + blanks.length, c.rest.drop blanks.length⟩

/-- How many bytes a reader has read who looked at the next one. -/
def peeked (c : Cursor) : Nat := if c.rest.isEmpty then c.offset else c.offset + 1

end Cursor

/-- An ASCII character as a byte. -/
def byte (c : Char) : UInt8 := c.toUInt8

def isDigitByte (b : UInt8) : Bool := byte '0' ≤ b && b ≤ byte '9'

/-! ### Strings -/

def hexValue? (b : UInt8) : Option Nat :=
  if isDigitByte b then some (b.toNat - (byte '0').toNat)
  else if byte 'a' ≤ b && b ≤ byte 'f' then some (b.toNat - (byte 'a').toNat + 10)
  else if byte 'A' ≤ b && b ≤ byte 'F' then some (b.toNat - (byte 'A').toNat + 10)
  else none

/-- The number four hexadecimal digits stand for. -/
def hexUnit? (a b c d : UInt8) : Option Nat := do
  some (4096 * (← hexValue? a) + 256 * (← hexValue? b) + 16 * (← hexValue? c) + (← hexValue? d))

/-- The character an escape of one letter stands for. -/
def escaped? (b : UInt8) : Option UInt8 :=
  if b == byte '"' || b == byte '\\' || b == byte '/' then some b
  else if b == byte 'b' then some 8
  else if b == byte 'f' then some 12
  else if b == byte 'n' then some 10
  else if b == byte 'r' then some 13
  else if b == byte 't' then some 9
  else none

def isControl (b : UInt8) : Bool := b < 0x20

/-- Follows a string to behind its closing quote, minding only that its escapes are complete. -/
def passString (offset : Nat) : List UInt8 → Except Flaw Cursor
  | [] => .error ⟨.endInString, offset⟩
  | b :: bs =>
    if b = byte '"' then .ok ⟨offset + 1, bs⟩
    else if b = byte '\\' then
      match bs with
      | [] => .error ⟨.endInString, offset + 1⟩
      | e :: more =>
        if e = byte 'u' then
          match more with
          | h₁ :: h₂ :: h₃ :: h₄ :: rest =>
            match hexUnit? h₁ h₂ h₃ h₄ with
            | none => .error ⟨.badEscape, offset + 6⟩
            | some _ => passString (offset + 6) rest
          | _ => .error ⟨.endInString, offset + 2 + more.length⟩
        else
          match escaped? e with
          | none => .error ⟨.badEscape, offset + 2⟩
          | some _ => passString (offset + 2) more
    else if isControl b then .error ⟨.controlInString, offset⟩
    else passString (offset + 1) bs

/-- The bytes of a code point. -/
def utf8 (n : Nat) : List UInt8 := String.utf8EncodeChar (Char.ofNat n)

def isHighSurrogate (n : Nat) : Bool := 0xd800 ≤ n && n ≤ 0xdbff

def isLowSurrogate (n : Nat) : Bool := 0xdc00 ≤ n && n ≤ 0xdfff

/-- The bytes of a string up to its closing quote, with escapes resolved, and the offset behind the
quote. Two escapes that are the halves of a pair stand for one character, and neither half may stand
alone. -/
def takeString (offset : Nat) : List UInt8 → Except Flaw (List UInt8 × Nat)
  | [] => .error ⟨.endInString, offset⟩
  | b :: bs =>
    if b = byte '"' then .ok ([], offset + 1)
    else if b = byte '\\' then
      match bs with
      | [] => .error ⟨.endInString, offset + 1⟩
      | e :: more =>
        if e = byte 'u' then
          match more with
          | h₁ :: h₂ :: h₃ :: h₄ :: rest =>
            match hexUnit? h₁ h₂ h₃ h₄ with
            | none => .error ⟨.badEscape, offset + 6⟩
            | some n =>
              if isLowSurrogate n then .error ⟨.loneSurrogate, offset + 6⟩
              else if isHighSurrogate n then
                match rest with
                | [] => .error ⟨.endInString, offset + 6⟩
                | s :: rest =>
                  if s ≠ byte '\\' then .error ⟨.halfPair, offset + 7⟩
                  else
                    match rest with
                    | [] => .error ⟨.endInString, offset + 7⟩
                    | u :: rest =>
                      if u ≠ byte 'u' then .error ⟨.halfPair, offset + 8⟩
                      else
                        match rest with
                        | l₁ :: l₂ :: l₃ :: l₄ :: rest =>
                          match hexUnit? l₁ l₂ l₃ l₄ with
                          | none => .error ⟨.badEscape, offset + 12⟩
                          | some low =>
                            if isLowSurrogate low then
                              let n := (n - 0xd800) * 0x400 + (low - 0xdc00) + 0x10000
                              (takeString (offset + 12) rest).map fun (out, stop) =>
                                (utf8 n ++ out, stop)
                            else .error ⟨.loneSurrogate, offset + 12⟩
                        | _ => .error ⟨.endInString, offset + 8 + rest.length⟩
              else
                (takeString (offset + 6) rest).map fun (out, stop) => (utf8 n ++ out, stop)
          | _ => .error ⟨.endInString, offset + 2 + more.length⟩
        else
          match escaped? e with
          | none => .error ⟨.badEscape, offset + 2⟩
          | some c => (takeString (offset + 2) more).map fun (out, stop) => (c :: out, stop)
    else if isControl b then .error ⟨.controlInString, offset + 1⟩
    else (takeString (offset + 1) bs).map fun (out, stop) => (b :: out, stop)

/-- The text of a string read behind its opening quote. -/
def stringText (c : Cursor) : Except Flaw String :=
  match takeString c.offset c.rest with
  | .error f => .error f
  | .ok (bytes, stop) =>
    match String.fromUTF8? ⟨bytes.toArray⟩ with
    | some s => .ok s
    | none => .error ⟨.badCodePoint, stop⟩

/-- Whether a string read behind its opening quote is closed, and where it breaks off if not. -/
def readString (c : Cursor) : Except Break (Except Flaw String × Cursor) :=
  match passString c.offset c.rest with
  | .ok behind => .ok (stringText c, behind)
  | .error passing =>
    match stringText c with
    | .error taking => .error ⟨taking, passing⟩
    | .ok _ => .error ⟨passing, passing⟩

/-! ### Numbers -/

/-- The digits of a number in writing: those before the point, those behind it, and the power of ten
with its sign and the offset of its first digit. -/
structure NumberText where
  negative : Bool
  whole : List UInt8
  fraction : Option (List UInt8)
  power : Option (Bool × Nat × List UInt8)
  stop : Nat

/-- The largest whole number that is kept. -/
def maxWhole : Nat := 18446744073709551615

/-- The largest power that is counted. -/
def maxPower : Nat := 2147483647

/-- Reads digits on to a number as long as it stays within `bound`; gives the number and the digits
that are left. -/
def readDigits (bound : Nat) (n : Nat) : List UInt8 → Nat × List UInt8
  | [] => (n, [])
  | d :: ds =>
    let next := 10 * n + (d.toNat - 48)
    if next ≤ bound then readDigits bound next ds else (n, d :: ds)

/-- The number in writing as far as a whole number of 64 bits or a real can tell. Digits that no
longer fit count as zeros. -/
def NumberText.number (t : NumberText) : Except Flaw Number :=
  let (n, spare) := readDigits maxWhole 0 t.whole
  match spare, t.fraction, t.power with
  | [], none, none =>
    if !t.negative then .ok (.whole n)
    else if n = 0 || n > signBit then .ok (.real (-(Float.ofNat n)).toBits)
    else .ok (.whole (-n))
  | _, _, _ =>
    let fraction := t.fraction.getD []
    let (n, rest) := readDigits maxWhole n fraction
    let behind : Int := spare.length - (fraction.length - rest.length)
    let real (power : Int) : Except Flaw Number :=
      match scaleDecimal t.negative n power with
      | some bits => .ok (.real bits)
      | none => .error ⟨.numberTooLarge, t.stop⟩
    match t.power with
    | none => real behind
    | some (down, offset, digits) =>
      let (power, spare) := readDigits maxPower 0 digits
      if spare.isEmpty then real (if down then behind - power else behind + power)
      else if n ≠ 0 && !down then
        .error ⟨.numberTooLarge, offset + (digits.length - spare.length) + 1⟩
      else .ok (.real (if t.negative then (-0.0 : Float) else 0.0).toBits)

/-- The digits that stand at a place, and the place behind them. -/
def Cursor.digits (c : Cursor) : List UInt8 × Cursor :=
  let ds := c.rest.takeWhile isDigitByte
  (ds, ⟨c.offset + ds.length, c.rest.drop ds.length⟩)

/-- A break where a number lacks a digit. Who takes the number over minds the end of the text. -/
def digitMissing (c : Cursor) : Break :=
  match c.rest with
  | [] => ⟨⟨.endInValue, c.offset⟩, ⟨.badNumber, c.offset⟩⟩
  | _ :: _ => .both .badNumber (c.offset + 1)

/-- The power of ten, if there is one. -/
def readPower (c : Cursor) : Except Break (Option (Bool × Nat × List UInt8) × Cursor) :=
  match c.rest with
  | e :: more =>
    if e = byte 'e' || e = byte 'E' then
      let (down, signed) : Bool × Cursor := match more with
        | s :: rest =>
          if s = byte '-' then (true, ⟨c.offset + 2, rest⟩)
          else if s = byte '+' then (false, ⟨c.offset + 2, rest⟩)
          else (false, ⟨c.offset + 1, more⟩)
        | [] => (false, ⟨c.offset + 1, []⟩)
      let (ds, behind) := signed.digits
      if ds.isEmpty then .error (digitMissing signed)
      else .ok (some (down, signed.offset, ds), behind)
    else .ok (none, c)
  | [] => .ok (none, c)

/-- The digits behind the point, if there is one. -/
def readFraction (c : Cursor) : Except Break (Option (List UInt8) × Cursor) :=
  match c.rest with
  | p :: more =>
    if p = byte '.' then
      let (ds, behind) := Cursor.digits ⟨c.offset + 1, more⟩
      if ds.isEmpty then .error (digitMissing ⟨c.offset + 1, more⟩) else .ok (some ds, behind)
    else .ok (none, c)
  | [] => .ok (none, c)

/-- A number behind its sign. A zero in front stands alone. -/
def readNumber (negative : Bool) (c : Cursor) : Except Break (NumberText × Cursor) :=
  let (ds, behind) := c.digits
  match ds with
  | [] => .error (digitMissing c)
  | d :: more =>
    if d = byte '0' && !more.isEmpty then .error (.both .badNumber (c.offset + 2))
    else
      match readFraction behind with
      | .error b => .error b
      | .ok (fraction, behind) =>
        match readPower behind with
        | .error b => .error b
        | .ok (power, behind) => .ok (⟨negative, ds, fraction, power, behind.offset⟩, behind)

/-! ### Words -/

/-- Follows the rest of a word. -/
def readWord (c : Cursor) : List Char → Except Break Cursor
  | [] => .ok c
  | w :: ws =>
    match c.rest with
    | [] => .error (.both .endInValue c.offset)
    | b :: bs =>
      if b = byte w then readWord ⟨c.offset + 1, bs⟩ ws
      else .error (.both .wordExpected (c.offset + 1))

/-! ### Values -/

/-- A node, and the place behind it if reading can go on. -/
structure Found where
  node : Node
  behind : Option Cursor

/-- The parts of a list: those found, how the list breaks off if it does, and the place behind its
closing bracket. -/
structure FoundParts (α : Type) where
  parts : List α
  ending : Option Break
  behind : Option Cursor

def FoundParts.add (p : FoundParts α) (a : α) : FoundParts α := {p with parts := a :: p.parts}

/-- A list that breaks off here. -/
def FoundParts.stop (b : Break) : FoundParts α := ⟨[], some b, none⟩

/-- Where the closing bracket of a list stands or the list breaks off. -/
def closeOf (behind : Option Cursor) (start : Nat) : Nat :=
  match behind with
  | some c => c.offset
  | none => start

mutual

/-- The node that stands at a place, blanks in front of it apart. Every call reads a byte, so the
number of bytes is fuel enough. -/
def readNode : Nat → Cursor → Found
  | 0, c => ⟨.broken c.offset none (.both .endInValue c.offset), none⟩
  | fuel + 1, c =>
    let c := c.skipSpace
    match c.rest with
    | [] => ⟨.broken c.offset none (.both .endInValue c.offset), none⟩
    | b :: bs =>
      let next : Cursor := ⟨c.offset + 1, bs⟩
      let breaks (at_ : Break) : Found := ⟨.broken c.offset (some b) at_, none⟩
      let word (rest : List Char) (node : Extent → Node) : Found :=
        match readWord next rest with
        | .error e => breaks e
        | .ok behind => ⟨node ⟨c.offset, behind.offset⟩, some behind⟩
      let number (negative : Bool) (from_ : Cursor) : Found :=
        match readNumber negative from_ with
        | .error e => breaks e
        | .ok (t, behind) => ⟨.number ⟨c.offset, t.stop⟩ t.number, some behind⟩
      if b = byte 'n' then word ['u', 'l', 'l'] .null
      else if b = byte 't' then word ['r', 'u', 'e'] (.bool · true)
      else if b = byte 'f' then word ['a', 'l', 's', 'e'] (.bool · false)
      else if b = byte '-' then number true next
      else if isDigitByte b then number false c
      else if b = byte '"' then
        match readString next with
        | .error e => breaks e
        | .ok (s, behind) => ⟨.string ⟨c.offset, behind.offset⟩ s, some behind⟩
      else if b = byte '[' then
        let found := readItems fuel true next
        ⟨.array ⟨c.offset, closeOf found.behind c.offset⟩ found.parts found.ending, found.behind⟩
      else if b = byte '\x7b' then
        let found := readMembers fuel true next
        ⟨.object ⟨c.offset, closeOf found.behind c.offset⟩ found.parts found.ending, found.behind⟩
      else breaks (.both .valueExpected (c.offset + 1))

/-- The items of a list from a place on; `first` tells that none has been read yet. -/
def readItems : Nat → Bool → Cursor → FoundParts Node
  | 0, _, c => .stop (.both .endInList c.offset)
  | fuel + 1, first, c =>
    let c := c.skipSpace
    let item (c : Cursor) : FoundParts Node :=
      let found := readNode fuel c
      match found.behind with
      | none => ⟨[found.node], none, none⟩
      | some behind => (readItems fuel false behind).add found.node
    match c.rest with
    | [] => .stop (.both .endInList c.offset)
    | b :: bs =>
      if b = byte ']' then ⟨[], none, some ⟨c.offset + 1, bs⟩⟩
      else if first then item c
      else if b = byte ',' then
        let next := Cursor.skipSpace ⟨c.offset + 1, bs⟩
        match next.rest with
        | [] => .stop (.both .endInValue next.offset)
        | b :: _ =>
          if b = byte ']' then
            .stop ⟨⟨.commaAtEnd, next.offset + 1⟩, ⟨.valueExpected, next.offset + 1⟩⟩
          else item next
      else .stop (.both .listGoesOn (c.offset + 1))

/-- The members of an object from a place on; `first` tells that none has been read yet. What stands
in the place of the first key without being one is kept beside its flaw. -/
def readMembers : Nat → Bool → Cursor → FoundParts (MemberKey × Node)
  | 0, _, c => .stop (.both .endInObject c.offset)
  | fuel + 1, first, c =>
    let c := c.skipSpace
    let member (c : Cursor) : FoundParts (MemberKey × Node) :=
      match readString c with
      | .error b => .stop b
      | .ok (text, behind) =>
        let sep := behind.skipSpace
        let missing (f : Flaw) (givenUp : Nat) : FoundParts (MemberKey × Node) :=
          ⟨[(⟨text, some f, behind.offset, givenUp⟩, .broken sep.offset none ⟨f, f⟩)], none, none⟩
        match sep.rest with
        | [] => missing ⟨.endInObject, sep.offset⟩ sep.offset
        | b :: bs =>
          if b = byte ':' then
            let found := readNode fuel ⟨sep.offset + 1, bs⟩
            let key : MemberKey := ⟨text, none, behind.offset, sep.offset⟩
            match found.behind with
            | none => ⟨[(key, found.node)], none, none⟩
            | some behind => (readMembers fuel false behind).add (key, found.node)
          else
            missing ⟨.colonExpected, sep.offset + 1⟩
              (if b = byte '\x7d' then sep.offset + 1 else sep.offset)
    match c.rest with
    | [] => .stop (.both .endInObject c.offset)
    | b :: bs =>
      if b = byte '\x7d' then ⟨[], none, some ⟨c.offset + 1, bs⟩⟩
      else if first then
        if b = byte '"' then member ⟨c.offset + 1, bs⟩
        else
          let f : Flaw := ⟨.keyExpected, c.offset + 1⟩
          ⟨[(⟨.error f, some f, c.offset, c.offset⟩, (readNode fuel c).node)], none, none⟩
      else if b = byte ',' then
        let next := Cursor.skipSpace ⟨c.offset + 1, bs⟩
        match next.rest with
        | [] => .stop ⟨⟨.endInValue, next.offset⟩, ⟨.endInObject, next.offset⟩⟩
        | b :: bs =>
          if b = byte '"' then member ⟨next.offset + 1, bs⟩
          else if b = byte '\x7d' then
            .stop ⟨⟨.commaAtEnd, next.offset + 1⟩, ⟨.keyExpected, next.offset + 1⟩⟩
          else .stop (.both .keyExpected (next.offset + 1))
      else .stop (.both .objectGoesOn (c.offset + 1))

end

/-- The node a text begins with. -/
def readText (bytes : List UInt8) : Found := readNode (2 * bytes.length + 2) ⟨0, bytes⟩

/-- The flaw of something other than blanks behind a value. -/
def textBehind (c : Cursor) : Option Flaw :=
  let c := c.skipSpace
  if c.rest.isEmpty then none else some ⟨.textAtEnd, c.offset + 1⟩

/-- Line, from one, and column of a place, given by the number of bytes before it. -/
def lineColumn (bytes : List UInt8) (offset : Nat) : Nat × Nat :=
  let read := bytes.take offset
  (read.count 10 + 1, (read.reverse.takeWhile (· != 10)).length)

end CodeEditing.Json
