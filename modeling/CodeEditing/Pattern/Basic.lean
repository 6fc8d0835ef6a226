import CodeEditing.Pattern.CharSet

/-! Patterns: what may stand in a text.

A pattern is built from characters, conditions on the place between two characters, sequence,
preferred choice, repetition and numbered groups. `Pattern.groupCount` is the highest group number.
`Pattern.least?` is the smallest number of characters a match takes, and `Pattern.takesNothing`
tells that no match takes any.

The makers (`ofSet`, `repeated`, `inOrder`, `oneOf`) give a pattern its plain form: characters in a
row make one text, a choice between single characters is a set, sequences and choices are not
nested in themselves, and what all parts of a choice begin with is taken out in front of it. -/
namespace CodeEditing

/-! ### Places between characters -/

/-- A condition on a place: it is an end of the text, or there are word characters on one side only,
on both or neither, not before but behind it, before but not behind it, none before it, or none
behind it. -/
inductive Anchor where
  | textStart
  | textEnd
  | wordEdge
  | noWordEdge
  | wordStart
  | wordEnd
  | noWordBefore
  | noWordBehind
  deriving Repr, DecidableEq

/-- A place in a text: the character before it, how many characters lie before it, and those that
follow. -/
structure Spot where
  previous : Option Char
  index : Nat
  rest : List Char
  deriving Repr, DecidableEq

namespace Spot

/-- The place in front of a text. -/
def start (text : List Char) : Spot := ⟨none, 0, text⟩

def wordBefore (s : Spot) : Bool := s.previous.any Text.isWord

def wordBehind (s : Spot) : Bool := s.rest.head?.any Text.isWord

/-- Whether the next character is in a set. -/
def nextIn (s : Spot) (set : CharSet) : Bool :=
  match s.rest with
  | [] => false
  | c :: _ => set.contains c

end Spot

def Anchor.holdsAt : Anchor → Spot → Bool
  | textStart, s => s.index == 0
  | textEnd, s => s.rest.isEmpty
  | wordEdge, s => s.wordBefore != s.wordBehind
  | noWordEdge, s => s.wordBefore == s.wordBehind
  | wordStart, s => !s.wordBefore && s.wordBehind
  | wordEnd, s => s.wordBefore && !s.wordBehind
  | noWordBefore, s => !s.wordBefore
  | noWordBehind, s => !s.wordBehind

/-! ### Patterns -/

/-- `text` takes the given characters and `one` any character of a set. `alt` prefers its first
part. `times` takes at least `lo` and at most `hi` matches, or any number from `lo` on; when greedy
it prefers to go on. -/
inductive Pattern where
  | empty
  | text (cs : List Char)
  | one (s : CharSet)
  | anchor (a : Anchor)
  | seq (p q : Pattern)
  | alt (p q : Pattern)
  | times (greedy : Bool) (lo : Nat) (hi : Option Nat) (p : Pattern)
  | group (number : Nat) (p : Pattern)
  deriving Repr, DecidableEq

namespace Pattern

/-- The highest group number in use. -/
def groupCount : Pattern → Nat
  | empty | text _ | one _ | anchor _ => 0
  | seq p q | alt p q => max p.groupCount q.groupCount
  | times _ _ _ p => p.groupCount
  | group n p => max n p.groupCount

/-- The smallest number of characters a match takes; none when some part of the pattern has no
match at all. -/
def least? : Pattern → Option Nat
  | empty | anchor _ => some 0
  | text cs => some cs.length
  | one s => if s.intervals.isEmpty then none else some 1
  | seq p q => p.least?.bind fun m => q.least?.map (m + ·)
  | alt p q => p.least?.bind fun m => q.least?.map (min m)
  | times _ lo _ p => p.least?.map (lo * ·)
  | group _ p => p.least?

/-- Whether it is plain that every match takes a character. -/
def takesSome (p : Pattern) : Bool := p.least?.any (0 < ·)

/-- Whether it is plain that no match takes a character. -/
def takesNothing : Pattern → Bool
  | empty | anchor _ => true
  | text cs => cs.isEmpty
  | one _ => false
  | seq p q | alt p q => p.takesNothing && q.takesNothing
  | times _ _ hi p => hi.isSome && p.takesNothing
  | group _ p => p.takesNothing

/-- Whether the pattern asks for `a` before it takes anything. -/
def beginsAt (a : Anchor) : Pattern → Bool
  | anchor b => a == b
  | seq p q => p.beginsAt a || (p.takesNothing && q.beginsAt a)
  | alt p q => p.beginsAt a && q.beginsAt a
  | times _ lo _ p => 0 < lo && p.beginsAt a
  | group _ p => p.beginsAt a
  | _ => false

/-- Whether the pattern asks for `a` behind all that it takes. -/
def endsAt (a : Anchor) : Pattern → Bool
  | anchor b => a == b
  | seq p q => q.endsAt a || (q.takesNothing && p.endsAt a)
  | alt p q => p.endsAt a && q.endsAt a
  | times _ lo _ p => 0 < lo && p.endsAt a
  | group _ p => p.endsAt a
  | _ => false

/-! ### Parts -/

/-- The parts of a sequence. -/
def pieces : Pattern → List Pattern
  | empty => []
  | seq p q => p :: q.pieces
  | p => [p]

/-- The parts of a choice. -/
def choices : Pattern → List Pattern
  | alt p q => p :: q.choices
  | p => [p]

/-- Whether two patterns differ at most in how their sets are described. -/
def alike : Pattern → Pattern → Bool
  | empty, empty => true
  | text a, text b => a == b
  | one a, one b => a.sameAs b
  | anchor a, anchor b => a == b
  | seq a b, seq c d | alt a b, alt c d => a.alike c && b.alike d
  | times g lo hi p, times g' lo' hi' q => g == g' && lo == lo' && hi == hi' && p.alike q
  | group n p, group m q => n == m && p.alike q
  | _, _ => false

/-- How many parts two sequences begin with that are alike. -/
def agreement : List Pattern → List Pattern → Nat
  | p :: ps, q :: qs => if p.alike q then agreement ps qs + 1 else 0
  | _, _ => 0

/-! ### Makers -/

/-- A character of a set. -/
def ofSet (s : CharSet) : Pattern :=
  match s.single? with
  | some c => text [c]
  | none => one s

/-- A repetition. Of what takes nothing more than one match makes no difference. -/
def repeated (greedy : Bool) (lo : Nat) (hi : Option Nat) (p : Pattern) : Pattern :=
  let (lo, hi) := if p.takesNothing then (min lo 1, some (min (hi.getD 1) 1)) else (lo, hi)
  if hi = some 0 then empty
  else if lo = 1 && hi = some 1 then p
  else times greedy lo hi p

/-- Puts a part in front of others. -/
def putBefore (p : Pattern) (ps : List Pattern) : List Pattern :=
  match p, ps with
  | text a, text b :: more => text (a ++ b) :: more
  | _, _ => p :: ps

/-- The sequence of parts that are in plain form. -/
def seqOf : List Pattern → Pattern
  | [] => empty
  | [p] => p
  | p :: ps => seq p (seqOf ps)

/-- One pattern after the other. -/
def inOrder (ps : List Pattern) : Pattern := seqOf ((ps.flatMap pieces).foldr putBefore [])

/-- The choice of parts that are in plain form. -/
def altOf : List Pattern → Pattern
  | [] => empty
  | [p] => p
  | p :: ps => alt p (altOf ps)

/-- The set of a pattern for a given character. -/
def letter? : Pattern → Option CharSet
  | text [c] => some (.only c)
  | _ => none

/-- The set of a pattern for any character of it. -/
def set? : Pattern → Option CharSet
  | one s => some s
  | _ => none

/-- A choice between given characters, or between sets, as a set. -/
def merge (ps : List Pattern) : Pattern :=
  let sets := (ps.mapM letter?).or (ps.mapM set?)
  match ps, sets with
  | _ :: _ :: _, some sets => ofSet (.unionAll sets)
  | _, _ => altOf ps

def isSeq : Pattern → Bool
  | seq _ _ => true
  | _ => false

/-- One of the patterns, the earlier the better. -/
def oneOf (ps : List Pattern) : Pattern :=
  let ps := ps.flatMap choices
  match ps with
  | first :: more =>
    let shared := (more.map fun p => agreement first.pieces p.pieces).foldl min first.pieces.length
    if ps.all isSeq && !more.isEmpty && 0 < shared then
      let behind := ps.map fun p => inOrder (p.pieces.drop shared)
      inOrder (first.pieces.take shared ++ [merge (behind.flatMap choices)])
    else merge ps
  | [] => empty

end Pattern

end CodeEditing
