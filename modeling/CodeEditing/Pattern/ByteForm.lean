import CodeEditing.Pattern.CharSet

/-! The bytes that write characters in UTF-8.

A form is a range of bytes for each place, so it stands for all texts of one character that have a
byte of the range at each place. `CharSet.forms` writes a set as forms, from the lowest code point to
the highest: it cuts every interval where the number of bytes changes, and then into blocks, so that
what follows the first byte that differs may be any byte at all.

`bytesOf_toNat`: the bytes are those that write the character. `length_forms_le`: the forms of a set
are at most 21 for each interval that its description can give it. -/
namespace CodeEditing

open CharSet (Interval)

/-- A range of bytes for each place. -/
abbrev ByteForm := List Interval

namespace ByteForm

/-- The bytes of a code point. -/
def bytesOf (n : Nat) : List Nat :=
  let behind (k : Nat) : Nat := 0x80 + n / Nat.pow 64 k % 64
  if n < 0x80 then [n]
  else if n < 0x800 then [0xc0 + n / 64, behind 0]
  else if n < 0x10000 then [0xe0 + n / Nat.pow 64 2, behind 1, behind 0]
  else [0xf0 + n / Nat.pow 64 3, behind 2, behind 1, behind 0]

/-- The bytes of a text. -/
def bytesOfText (cs : List Char) : List Nat := cs.flatMap fun c => bytesOf c.toNat

/-- They are the bytes that write the character. -/
theorem bytesOf_toNat (c : Char) : bytesOf c.toNat = (String.utf8EncodeChar c).map UInt8.toNat := by
  have h : c.toNat < 0x110000 := by
    have := c.valid
    simp only [UInt32.isValidChar, Nat.isValidChar] at this
    simp only [Char.toNat]
    omega
  simp only [bytesOf, String.utf8EncodeChar, Char.toNat, Nat.pow] at *
  generalize c.val.toNat = n at *
  repeat' split
  all_goals first | omega | simp
  all_goals omega

/-- Every code point has one to four bytes. -/
theorem length_bytesOf (n : Nat) : 1 ≤ (bytesOf n).length ∧ (bytesOf n).length ≤ 4 := by
  simp only [bytesOf]
  split <;> (try split) <;> (try split) <;> simp

/-! ### Blocks

A block of the level `k` is `64 ^ k` code points from a multiple of that number on: those that differ
in their last `k` bytes. -/

def blockSize (k : Nat) : Nat := Nat.pow 64 k

/-- The first block of the level `k` that begins at `n` or behind it. -/
def blockFrom (k n : Nat) : Nat := (n + blockSize k - 1) / blockSize k * blockSize k

/-- The last block of the level `k` that begins at `n` or before it. -/
def blockTo (k n : Nat) : Nat := n / blockSize k * blockSize k

/-- The code points from `first` on and before `stop`. -/
def between (first stop : Nat) : List Interval :=
  if first < stop then [(first, stop - 1)] else []

/-- The code points from `n` on and before the next block of the level `k`, in ranges of whole blocks
of lower levels. -/
def blocksUp : Nat → Nat → List Interval
  | 0, _ => []
  | k + 1, n => blocksUp k n ++ between (blockFrom k n) (blockFrom (k + 1) n)

/-- The code points from the last block of the level `k` on and before `n`, in ranges of whole blocks
of lower levels. -/
def blocksDown : Nat → Nat → List Interval
  | 0, _ => []
  | k + 1, n => between (blockTo (k + 1) n) (blockTo k n) ++ blocksDown k n

/-- An interval in ranges of whole blocks. -/
def blocks : Nat → Interval → List Interval
  | 0, i => [i]
  | k + 1, (lo, hi) =>
    if blockTo (k + 1) lo = blockTo (k + 1) hi then blocks k (lo, hi)
    else
      blocksUp (k + 1) lo ++ between (blockFrom (k + 1) lo) (blockTo (k + 1) (hi + 1)) ++
        blocksDown (k + 1) (hi + 1)

/-- The code points by the number of bytes behind the first one. No character lies between the two
intervals of those that have two. -/
def widths : List (Nat × Interval) :=
  [(0, 0, 0x7f), (1, 0x80, 0x7ff), (2, 0x800, CharSet.lastBelowGap),
    (2, CharSet.firstAboveGap, 0xffff), (3, 0x10000, CharSet.lastCode)]

/-- The forms of an interval. -/
def ofInterval (i : Interval) : List ByteForm :=
  widths.flatMap fun (k, first, last) =>
    let lo := max first i.1
    let hi := min last i.2
    if lo ≤ hi then (blocks k (lo, hi)).map fun b => (bytesOf b.1).zip (bytesOf b.2) else []

theorem length_between (first stop : Nat) : (between first stop).length ≤ 1 := by
  rw [between]
  split <;> simp

theorem length_blocksUp (k n : Nat) : (blocksUp k n).length ≤ k := by
  induction k with
  | zero => simp [blocksUp]
  | succ k ih =>
    rw [blocksUp, List.length_append]
    exact Nat.add_le_add ih (length_between _ _)

theorem length_blocksDown (k n : Nat) : (blocksDown k n).length ≤ k := by
  induction k with
  | zero => simp [blocksDown]
  | succ k ih =>
    rw [blocksDown, List.length_append, Nat.add_comm k]
    exact Nat.add_le_add (length_between _ _) ih

theorem length_blocks (k : Nat) (i : Interval) : (blocks k i).length ≤ 2 * k + 1 := by
  induction k with
  | zero => simp [blocks]
  | succ k ih =>
    rw [blocks]
    split
    · exact Nat.le_trans ih (by omega)
    · have := length_blocksUp (k + 1) i.1
      have := length_between (blockFrom (k + 1) i.1) (blockTo (k + 1) (i.2 + 1))
      have := length_blocksDown (k + 1) (i.2 + 1)
      simp only [List.length_append]
      omega

theorem length_ofInterval (i : Interval) : (ofInterval i).length ≤ 21 := by
  have part (k first last : Nat) :
      (if max first i.1 ≤ min last i.2 then
        (blocks k (max first i.1, min last i.2)).map fun b => (bytesOf b.1).zip (bytesOf b.2)
        else []).length ≤ 2 * k + 1 := by
    split
    · simpa using length_blocks k _
    · simp
  have h0 := part 0 0 0x7f
  have h1 := part 1 0x80 0x7ff
  have h2 := part 2 0x800 CharSet.lastBelowGap
  have h3 := part 2 CharSet.firstAboveGap 0xffff
  have h4 := part 3 0x10000 CharSet.lastCode
  simp only [ofInterval, widths, List.flatMap_cons, List.flatMap_nil, List.length_append,
    List.length_nil]
  omega

end ByteForm

namespace CharSet

/-- The forms of a set, the lowest code point first. -/
def forms (s : CharSet) : List ByteForm := s.intervals.flatMap ByteForm.ofInterval

/-- No fewer than the intervals of a set, read off its description. -/
def intervalBound : CharSet → Nat
  | range _ _ => 1
  | digit => Text.digitIntervals.size + 1
  | blank => blankIntervals.length
  | word => Text.wordIntervals.size + 4
  | nothing => 0
  | union a b => a.intervalBound + b.intervalBound
  | inter a b => a.intervalBound + b.intervalBound + 3
  | compl a => a.intervalBound + 1

theorem length_addInterval (lo hi : Nat) (is : List Interval) :
    (addInterval lo hi is).length ≤ is.length + 1 := by
  induction is generalizing lo hi with
  | nil => simp [addInterval]
  | cons i is ih =>
    rw [addInterval]
    split
    · simp
    · split
      · simpa using ih lo hi
      · exact Nat.le_trans (ih _ _) (by simp)

theorem length_foldl_addInterval (is all : List Interval) :
    (is.foldl (fun all i => addInterval i.1 i.2 all) all).length ≤ is.length + all.length := by
  induction is generalizing all with
  | nil => simp
  | cons i is ih =>
    have := length_addInterval i.1 i.2 all
    have := ih (addInterval i.1 i.2 all)
    simp only [List.foldl_cons, List.length_cons]
    omega

theorem length_joinIntervals (a b : List Interval) :
    (joinIntervals a b).length ≤ a.length + b.length := by
  have := length_foldl_addInterval a b
  have := length_foldl_addInterval b a
  simp only [joinIntervals]
  split <;> omega

theorem length_gapsFrom (first : Nat) (is : List Interval) :
    (gapsFrom first is).length ≤ is.length + 1 := by
  induction is generalizing first with
  | nil => rw [gapsFrom]; split <;> simp
  | cons i is ih =>
    have := ih (codeAfter i.2)
    simp only [gapsFrom]
    split <;> simp only [List.length_cons] <;> omega

theorem length_intervals_le (s : CharSet) : s.intervals.length ≤ s.intervalBound := by
  induction s with
  | range lo hi => rw [intervals]; split <;> simp [intervalBound]
  | digit => simp [intervals, intervalBound]
  | blank => simp [intervals, intervalBound]
  | word => simp [intervals, intervalBound]
  | nothing => simp [intervals]
  | union a b iha ihb =>
    have := length_joinIntervals a.intervals b.intervals
    simp only [intervals, intervalBound]
    omega
  | inter a b iha ihb =>
    have := length_gapsFrom 0 a.intervals
    have := length_gapsFrom 0 b.intervals
    have := length_joinIntervals (gapsFrom 0 a.intervals) (gapsFrom 0 b.intervals)
    have := length_gapsFrom 0 (joinIntervals (gapsFrom 0 a.intervals) (gapsFrom 0 b.intervals))
    simp only [intervals, intervalBound]
    omega
  | compl a iha =>
    have := length_gapsFrom 0 a.intervals
    simp only [intervals, intervalBound]
    omega

theorem length_forms_le (s : CharSet) : s.forms.length ≤ 21 * s.intervalBound := by
  have h (is : List Interval) : (is.flatMap ByteForm.ofInterval).length ≤ 21 * is.length := by
    induction is with
    | nil => simp
    | cons i is ih =>
      have := ByteForm.length_ofInterval i
      simp only [List.flatMap_cons, List.length_append, List.length_cons]
      omega
  exact Nat.le_trans (h s.intervals) (Nat.mul_le_mul_left 21 s.length_intervals_le)

end CharSet

end CodeEditing
