import CodeEditing.Pattern.Matcher
import CodeEditing.Pattern.Plan

/-! Patterns in writing.

A written pattern is read in two passes. The first cuts it into lexemes: a part that stands for
itself, a repetition of the part before, a bar, the opening and the closing of a group. The second
(`Assembly.step`) puts the lexemes together, with one frame for each group still open; groups are
numbered by their openings, from one.

Letters escaped with a backslash are reserved: only the ones listed in `readEscape` mean something,
and any other is refused, as are numbered references. Any escaped sign stands for itself. Look-around,
named groups, inline options and classes by property are refused too, and so is a pattern that is
nested too deeply (`maxHeight`) or takes too much room (`fits`). That is the notation the languages
here are written in, and not all there is: rule tables take any other reader
(`CodeEditing.Pattern.Regex`). -/
namespace CodeEditing.Pattern

/-! ### Escapes -/

/-- What follows a backslash: a character, a set of characters, or a condition on the place. -/
inductive Escape where
  | char (c : Char)
  | set (s : CharSet)
  | anchor (a : Anchor)

/-- The value of a hexadecimal digit. -/
def hexDigit? (c : Char) : Option Nat :=
  if '0' ≤ c && c ≤ '9' then some (c.toNat - '0'.toNat)
  else if 'a' ≤ c && c ≤ 'f' then some (c.toNat - 'a'.toNat + 10)
  else if 'A' ≤ c && c ≤ 'F' then some (c.toNat - 'A'.toNat + 10)
  else none

/-- The character whose code point the digits give. -/
def hexChar? (digits : List Char) : Option Char := do
  if digits.isEmpty then none
  let n ← digits.foldlM (fun n c => (hexDigit? c).map (16 * n + ·)) 0
  if n.isValidChar then some (Char.ofNat n) else none

/-- A code point in braces, or of exactly `count` digits. -/
def readHex (count : Nat) : List Char → Option (Char × List Char)
  | '\x7b' :: cs =>
    match cs.dropWhile (· != '\x7d') with
    | [] => none
    | _ :: rest => (hexChar? (cs.takeWhile (· != '\x7d'))).map (·, rest)
  | cs => if cs.length < count then none else (hexChar? (cs.take count)).map (·, cs.drop count)

/-- Whether a backslash before `c` makes it stand for itself. -/
def isEscapable (c : Char) : Bool := c.toNat < 128 && !c.isAlphanum

/-- The condition on word characters that a name in braces stands for. -/
def namedEdge? (name : List Char) : Option Anchor :=
  match String.ofList name with
  | "start" => some .wordStart
  | "end" => some .wordEnd
  | "start-half" => some .noWordBefore
  | "end-half" => some .noWordBehind
  | _ => none

/-- The condition written with a `b`. Braces behind it hold a name when they begin with a letter or a
hyphen, and else a count. -/
def readEdge (cs : List Char) : Option (Escape × List Char) :=
  let inName (c : Char) : Bool := c.isAlpha || c == '-'
  match cs with
  | '\x7b' :: c :: more =>
    if inName c then
      match (c :: more).dropWhile inName with
      | '\x7d' :: rest => (namedEdge? ((c :: more).takeWhile inName)).map fun a => (.anchor a, rest)
      | _ => none
    else some (.anchor .wordEdge, cs)
  | _ => some (.anchor .wordEdge, cs)

/-- What stands after a backslash, and the rest. -/
def readEscape : List Char → Option (Escape × List Char)
  | [] => none
  | 'x' :: cs => (readHex 2 cs).map fun (c, rest) => (.char c, rest)
  | 'u' :: cs => (readHex 4 cs).map fun (c, rest) => (.char c, rest)
  | 'U' :: cs => (readHex 8 cs).map fun (c, rest) => (.char c, rest)
  | 'd' :: cs => some (.set .digit, cs)
  | 'D' :: cs => some (.set (.compl .digit), cs)
  | 's' :: cs => some (.set .blank, cs)
  | 'S' :: cs => some (.set (.compl .blank), cs)
  | 'w' :: cs => some (.set .word, cs)
  | 'W' :: cs => some (.set (.compl .word), cs)
  | 'a' :: cs => some (.char '\x07', cs)
  | 'f' :: cs => some (.char '\x0c', cs)
  | 't' :: cs => some (.char '\t', cs)
  | 'n' :: cs => some (.char '\n', cs)
  | 'r' :: cs => some (.char '\r', cs)
  | 'v' :: cs => some (.char '\x0b', cs)
  | 'A' :: cs => some (.anchor .textStart, cs)
  | 'z' :: cs => some (.anchor .textEnd, cs)
  | 'b' :: cs => readEdge cs
  | 'B' :: cs => some (.anchor .noWordEdge, cs)
  | '<' :: cs => some (.anchor .wordStart, cs)
  | '>' :: cs => some (.anchor .wordEnd, cs)
  | c :: cs => if isEscapable c then some (.char c, cs) else none

/-! ### Sets in brackets -/

/-- How two sets inside brackets are combined. -/
inductive SetOp where
  | inter
  | diff
  | symmDiff

def SetOp.apply : SetOp → CharSet → CharSet → CharSet
  | inter, a, b => CharSet.inter a b
  | diff, a, b => CharSet.diff a b
  | symmDiff, a, b => CharSet.symmDiff a b

/-- The ASCII class of a name. -/
def namedSet? (name : List Char) : Option CharSet :=
  let lower := CharSet.range 'a' 'z'
  let upper := CharSet.range 'A' 'Z'
  let digits := CharSet.range '0' '9'
  let alnum := CharSet.union digits (CharSet.union upper lower)
  match String.ofList name with
  | "alnum" => some alnum
  | "alpha" => some (.union upper lower)
  | "ascii" => some (.range '\x00' '\x7f')
  | "blank" => some (.union (.only '\t') (.only ' '))
  | "cntrl" => some (.union (.range '\x00' '\x1f') (.only '\x7f'))
  | "digit" => some digits
  | "graph" => some (.range '!' '~')
  | "lower" => some lower
  | "print" => some (.range ' ' '~')
  | "punct" => some (.diff (.range '!' '~') alnum)
  | "space" => some (.union (.range '\t' '\r') (.only ' '))
  | "upper" => some upper
  | "word" => some (.union alnum (.only '_'))
  | "xdigit" => some (.union digits (.union (.range 'A' 'F') (.range 'a' 'f')))
  | _ => none

/-- A named class between brackets and colons, read behind its opening bracket. -/
def readNamedSet : List Char → Option (CharSet × List Char)
  | ':' :: cs =>
    let (negated, cs) := match cs with
      | '^' :: more => (true, more)
      | _ => (false, cs)
    let name := cs.takeWhile (· != ':')
    match cs.dropWhile (· != ':') with
    | ':' :: ']' :: rest => (namedSet? name).map fun s => (if negated then .compl s else s, rest)
    | _ => none
  | _ => none

/-- A single character or a shorthand inside brackets. -/
def readItem : List Char → Option (Escape × List Char)
  | [] => none
  | '\\' :: cs => readEscape cs
  | c :: cs => some (.char c, cs)

/-- A character, a shorthand or an interval inside brackets. A hyphen before the closing bracket or
before another hyphen makes no interval. -/
def readMember (cs : List Char) : Option (CharSet × List Char) := do
  let (first, rest) ← readItem cs
  let alone : Option (CharSet × List Char) :=
    match first with
    | .char c => some (.only c, rest)
    | .set s => some (s, rest)
    | .anchor _ => none
  match rest with
  | '-' :: ']' :: _ => alone
  | '-' :: '-' :: _ => alone
  | '-' :: more =>
    match first, ← readItem more with
    | .char lo, (.char hi, rest) => if lo ≤ hi then some (.range lo hi, rest) else none
    | _, _ => none
  | _ => alone

/-- The members of a set in brackets that have been read: what they hold together, how many there
are, and how deeply the deepest is nested. -/
structure Members where
  set : CharSet
  count : Nat
  height : Nat

namespace Members

def none : Members := ⟨.nothing, 0, 0⟩

def add (m : Members) (s : CharSet) (height : Nat) : Members :=
  ⟨.union m.set s, m.count + 1, max m.height height⟩

/-- Several members are one level deeper than one alone. -/
def depth (m : Members) : Nat := if m.count ≤ 1 then m.height else m.height + 1

end Members

/-- An operator in brackets with what stands before it. -/
structure Pending where
  op : SetOp
  before : CharSet
  height : Nat

/-- What the members together with an operator before them hold, and how deeply it is nested. -/
def Members.combined (m : Members) : Option Pending → CharSet × Nat
  | Option.none => (m.set, m.depth)
  | some p => (p.op.apply p.before m.set, max p.height m.depth + 1)

/-- What stands right behind an opening bracket: whether the set is negated, and the hyphens, or
else the closing bracket, that stand there for themselves. -/
def readSetStart (cs : List Char) : Bool × Members × List Char :=
  let (negated, cs) := match cs with
    | '^' :: more => (true, more)
    | _ => (false, cs)
  match cs with
  | '-' :: _ =>
    let hyphens := cs.takeWhile (· == '-')
    (negated, ⟨.only '-', hyphens.length, 0⟩, cs.dropWhile (· == '-'))
  | ']' :: more => (negated, ⟨.only ']', 1, 0⟩, more)
  | _ => (negated, .none, cs)

/-- The rest of a set in brackets, up to its closing bracket, and how deeply it is nested. `members`
are those since the last operator, `pending` is that operator. Every step reads a character, so the
number of characters is fuel enough. -/
def readMembers : Nat → Members → Option Pending → List Char →
    Option ((CharSet × Nat) × List Char)
  | 0, _, _, _ => none
  | fuel + 1, members, pending, cs =>
    let operator (op : SetOp) (rest : List Char) : Option ((CharSet × Nat) × List Char) :=
      let (set, height) := members.combined pending
      readMembers fuel .none (some ⟨op, set, height⟩) rest
    match cs with
    | [] => none
    | ']' :: rest => some (members.combined pending, rest)
    | '[' :: more =>
      match readNamedSet more with
      | some (s, rest) => readMembers fuel (members.add s 0) pending rest
      | none => do
        let (negated, start, more) := readSetStart more
        let ((inner, height), rest) ← readMembers fuel start none more
        let inner := if negated then .compl inner else inner
        readMembers fuel (members.add inner (height + 1)) pending rest
    | '&' :: '&' :: rest => operator .inter rest
    | '-' :: '-' :: rest => operator .diff rest
    | '~' :: '~' :: rest => operator .symmDiff rest
    | _ => do
      let (s, rest) ← readMember cs
      readMembers fuel (members.add s 0) pending rest

/-- A set in brackets, read behind its opening bracket, and how deeply it is nested. -/
def readSet (cs : List Char) : Option ((CharSet × Nat) × List Char) := do
  let (negated, start, more) := readSetStart cs
  let ((s, height), rest) ← readMembers (more.length + 1) start none more
  some ((if negated then .compl s else s, height + 1), rest)

/-! ### Repetition counts -/

/-- The largest count a repetition may give. -/
def maxCount : Nat := 4294967295

/-- A decimal number among blanks. -/
def readCount (cs : List Char) : Option (Nat × List Char) :=
  let cs := Text.trimStart cs
  let isDigit (c : Char) : Bool := '0' ≤ c && c ≤ '9'
  let digits := cs.takeWhile isDigit
  if digits.isEmpty then none
  else
    let n := digits.foldl (fun n c => 10 * n + (c.toNat - '0'.toNat)) 0
    if n ≤ maxCount then some (n, Text.trimStart (cs.dropWhile isDigit)) else none

/-- The bounds of a counted repetition, read behind the opening brace. -/
def readBounds (cs : List Char) : Option (Nat × Option Nat × List Char) := do
  let (lo, rest) ← readCount cs
  match rest with
  | '\x7d' :: rest => some (lo, some lo, rest)
  | ',' :: '\x7d' :: rest => some (lo, none, rest)
  | ',' :: more =>
    let (hi, rest) ← readCount more
    match rest with
    | '\x7d' :: rest => if lo ≤ hi then some (lo, some hi, rest) else none
    | _ => none
  | _ => none

/-! ### Lexemes -/

/-- A pattern and how deeply it is nested in writing. -/
structure Part where
  pattern : Pattern
  height : Nat

inductive Lexeme where
  | part (p : Part)
  | times (greedy : Bool) (lo : Nat) (hi : Option Nat)
  | bar
  | opening (numbered : Bool)
  | closing

/-- A part that is not nested. -/
def Lexeme.flat (p : Pattern) : Lexeme := .part ⟨p, 0⟩

/-- A question mark behind a repetition makes it prefer to stop. -/
def readGreedy : List Char → Bool × List Char
  | '?' :: rest => (false, rest)
  | cs => (true, cs)

/-- The first lexeme of a written pattern, and the rest. -/
def readLexeme : List Char → Option (Lexeme × List Char)
  | [] => none
  | '(' :: '?' :: ':' :: rest => some (.opening false, rest)
  | '(' :: '?' :: _ => none
  | '(' :: rest => some (.opening true, rest)
  | ')' :: rest => some (.closing, rest)
  | '|' :: rest => some (.bar, rest)
  | '*' :: cs => let (greedy, rest) := readGreedy cs; some (.times greedy 0 none, rest)
  | '+' :: cs => let (greedy, rest) := readGreedy cs; some (.times greedy 1 none, rest)
  | '?' :: cs => let (greedy, rest) := readGreedy cs; some (.times greedy 0 (some 1), rest)
  | '\x7b' :: cs => do
    let (lo, hi, cs) ← readBounds cs
    let (greedy, rest) := readGreedy cs
    some (.times greedy lo hi, rest)
  | '[' :: cs => (readSet cs).map fun ((s, height), rest) => (.part ⟨ofSet s, height⟩, rest)
  | '.' :: rest => some (.flat (one .inLine), rest)
  | '^' :: rest => some (.flat (anchor .textStart), rest)
  | '$' :: rest => some (.flat (anchor .textEnd), rest)
  | '\\' :: cs =>
    (readEscape cs).map fun
      | (.char c, rest) => (.flat (text [c]), rest)
      | (.set s, rest) => (.flat (one s), rest)
      | (.anchor a, rest) => (.flat (anchor a), rest)
  | c :: rest => some (.flat (text [c]), rest)

/-- The lexemes of a written pattern. Every lexeme takes a character, so the number of characters is
fuel enough. -/
def readLexemes : Nat → List Char → Option (List Lexeme)
  | _, [] => some []
  | 0, _ :: _ => none
  | fuel + 1, cs => do
    let (lexeme, rest) ← readLexeme cs
    let more ← readLexemes fuel rest
    some (lexeme :: more)

/-! ### Putting lexemes together -/

/-- Several parts put together by `combine`, one level deeper than the deepest of them. -/
def Part.join (combine : List Pattern → Pattern) (parts : List Part) : Part :=
  let height := (parts.map Part.height).foldl max 0
  ⟨combine (parts.map Part.pattern), if parts.length ≤ 1 then height else height + 1⟩

/-- An open group: its number if it has one, the finished alternatives and the parts of the current
one, both latest first. -/
structure Frame where
  number : Option Nat
  finished : List Part
  parts : List Part

namespace Frame

def opened (number : Option Nat) : Frame := ⟨number, [], []⟩

/-- The current alternative. -/
def current (f : Frame) : Part := .join inOrder f.parts.reverse

/-- What stands between the opening and the closing of the group. -/
def body (f : Frame) : Part := .join oneOf (f.current :: f.finished).reverse

/-- The whole group. -/
def close (f : Frame) : Part :=
  let body := f.body
  match f.number with
  | some n => ⟨group n body.pattern, body.height + 1⟩
  | none => ⟨body.pattern, body.height + 1⟩

end Frame

/-- The group being read, those around it, and how many groups are numbered so far. -/
structure Assembly where
  frame : Frame
  outer : List Frame
  numbered : Nat

namespace Assembly

def start : Assembly := ⟨.opened none, [], 0⟩

def push (a : Assembly) (p : Part) : Assembly :=
  {a with frame := {a.frame with parts := p :: a.frame.parts}}

def step (a : Assembly) : Lexeme → Option Assembly
  | .part p => some (a.push p)
  | .times greedy lo hi =>
    match a.frame.parts with
    | [] => none
    | p :: parts =>
      let p : Part := ⟨repeated greedy lo hi p.pattern, p.height + 1⟩
      some {a with frame := {a.frame with parts := p :: parts}}
  | .bar =>
    some {a with frame := {a.frame with finished := a.frame.current :: a.frame.finished, parts := []}}
  | .opening true =>
    some ⟨.opened (some (a.numbered + 1)), a.frame :: a.outer, a.numbered + 1⟩
  | .opening false => some ⟨.opened none, a.frame :: a.outer, a.numbered⟩
  | .closing =>
    match a.outer with
    | [] => none
    | f :: outer => some (Assembly.push ⟨f, outer, a.numbered⟩ a.frame.close)

/-- What has been read, when no group is left open. -/
def finish (a : Assembly) : Option Part :=
  match a.outer with
  | [] => some a.frame.body
  | _ :: _ => none

end Assembly

/-- How deeply a pattern may be nested: every group, repetition and set in brackets is a level, and
so are parts in a row and alternatives when there are several. -/
def maxHeight : Nat := 250

/-- The pattern a text stands for, if it stands for one. -/
def ofText? (cs : List Char) : Option Pattern := do
  let lexemes ← readLexemes cs.length cs
  let assembly ← lexemes.foldlM Assembly.step Assembly.start
  let whole ← assembly.finish
  if whole.height ≤ maxHeight && whole.pattern.fits then some whole.pattern else none

end CodeEditing.Pattern

namespace CodeEditing.Matcher

/-- The matcher of a written pattern, if it stands for one. -/
def ofText? (cs : List Char) : Option Matcher := (Pattern.ofText? cs).map Pattern.matcher

end CodeEditing.Matcher
