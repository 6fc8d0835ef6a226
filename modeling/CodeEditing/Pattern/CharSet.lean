import CodeEditing.Text.Blank
import CodeEditing.Text.Word

/-! Sets of characters.

A set is built from intervals and named classes. `contains` decides membership, `intervals` lists
the code points of the set as sorted intervals that do not touch. No character lies between
`lastBelowGap` and `firstAboveGap`, so the one follows the other. -/
namespace CodeEditing

inductive CharSet where
  | range (lo hi : Char)
  | digit
  | blank
  | word
  | nothing
  | union (a b : CharSet)
  | inter (a b : CharSet)
  | compl (a : CharSet)
  deriving Repr, DecidableEq

namespace CharSet

def contains : CharSet → Char → Bool
  | range lo hi, c => lo ≤ c && c ≤ hi
  | digit, c => Text.isDigit c
  | blank, c => Text.isBlank c
  | word, c => Text.isWord c
  | nothing, _ => false
  | union a b, c => a.contains c || b.contains c
  | inter a b, c => a.contains c && b.contains c
  | compl a, c => !a.contains c

/-- The set of one character. -/
def only (c : Char) : CharSet := range c c

/-- Everything but a line feed. -/
def inLine : CharSet := compl (only '\n')

/-- What is in the first set and not in the second. -/
def diff (a b : CharSet) : CharSet := inter a (compl b)

/-- What is in exactly one of the two sets. -/
def symmDiff (a b : CharSet) : CharSet := union (diff a b) (diff b a)

/-- What is in any of the sets. -/
def unionAll (sets : List CharSet) : CharSet := sets.foldl union nothing

@[simp] theorem contains_only (c d : Char) : (only c).contains d = (d == c) := by
  have h : (c ≤ d ∧ d ≤ c) ↔ d = c := ⟨fun h => Char.le_antisymm h.2 h.1, by rintro rfl; simp⟩
  rw [Bool.eq_iff_iff]
  simpa [only, contains] using h

@[simp] theorem contains_inLine (c : Char) : inLine.contains c = (c != '\n') := by
  simp [inLine, contains, bne]

/-! ### Intervals -/

/-- Code points from the first to the second. -/
abbrev Interval := Nat × Nat

def lastBelowGap : Nat := 0xd7ff

def firstAboveGap : Nat := 0xe000

def lastCode : Nat := 0x10ffff

/-- The next code point of a character. -/
def codeAfter (n : Nat) : Nat := if n = lastBelowGap then firstAboveGap else n + 1

/-- The code point of a character before this one. -/
def codeBefore (n : Nat) : Nat := if n = firstAboveGap then lastBelowGap else n - 1

/-- Adds an interval to sorted ones and joins those that touch. -/
def addInterval (lo hi : Nat) : List Interval → List Interval
  | [] => [(lo, hi)]
  | (a, b) :: rest =>
    if hi + 1 < a then (lo, hi) :: (a, b) :: rest
    else if b + 1 < lo then (a, b) :: addInterval lo hi rest
    else addInterval (min lo a) (max hi b) rest

/-- The code points of either list; the shorter one is added to the longer one. -/
def joinIntervals (a b : List Interval) : List Interval :=
  let add (all : List Interval) (i : Interval) : List Interval := addInterval i.1 i.2 all
  if a.length ≤ b.length then a.foldl add b else b.foldl add a

/-- The code points from `first` on that lie in no interval. -/
def gapsFrom (first : Nat) : List Interval → List Interval
  | [] => if first ≤ lastCode then [(first, lastCode)] else []
  | (a, b) :: rest =>
    let more := gapsFrom (codeAfter b) rest
    if first < a then (first, codeBefore a) :: more else more

/-- The code points of the blanks. -/
def blankIntervals : List Interval :=
  [(9, 13), (32, 32), (0x85, 0x85), (0xa0, 0xa0), (0x1680, 0x1680), (0x2000, 0x200a),
    (0x2028, 0x2029), (0x202f, 0x202f), (0x205f, 0x205f), (0x3000, 0x3000)]

def intervals : CharSet → List Interval
  | range lo hi => if lo ≤ hi then [(lo.toNat, hi.toNat)] else []
  | digit => (48, 57) :: Text.digitIntervals.toList
  | blank => blankIntervals
  | word => (48, 57) :: (65, 90) :: (95, 95) :: (97, 122) :: Text.wordIntervals.toList
  | nothing => []
  | union a b => joinIntervals a.intervals b.intervals
  | inter a b => gapsFrom 0 (joinIntervals (gapsFrom 0 a.intervals) (gapsFrom 0 b.intervals))
  | compl a => gapsFrom 0 a.intervals

/-- The character of a set that has only one. -/
def single? (s : CharSet) : Option Char :=
  match s.intervals with
  | [(a, b)] => if a = b then some (Char.ofNat a) else none
  | _ => none

/-- Whether two sets have the same characters. -/
def sameAs (a b : CharSet) : Bool := a == b || a.intervals == b.intervals

end CharSet

end CodeEditing
