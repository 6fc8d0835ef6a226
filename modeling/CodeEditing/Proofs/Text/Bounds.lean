import CodeEditing.Text.Columns

/-! Steps that can go wrong.

A text kept in memory is cut at columns, and columns are found by counting down; either can go wrong.
`cut?`, `slice?` and `part?` give a part of a text if its ends lie in the text, between two characters
and in order, `minus?` is a difference that is not below zero, and `floorColumn?` looks for a character
boundary from a column down. Each has a lemma that says when it goes well. -/
namespace CodeEditing.Text

/-- The difference of two numbers, unless the one that is taken away is larger. -/
def minus? (a b : Nat) : Option Nat := if b ≤ a then some (a - b) else none

/-- A line in two at a column, if that is a character boundary. -/
def cut? (column : Nat) (line : List Char) : Option (List Char × List Char) :=
  if IsBoundary column line then some (before column line, after column line) else none

/-- What is between two columns, if both are character boundaries and the first is not behind the
second. -/
def slice? (start stop : Nat) (line : List Char) : Option (List Char) :=
  if start ≤ stop ∧ IsBoundary start line ∧ IsBoundary stop line then some (between start stop line)
  else none

/-- The characters between two places that are counted in characters, if there are so many and the
first place is not behind the second. -/
def part? (start stop : Nat) (text : List Char) : Option (List Char) :=
  if start ≤ stop ∧ stop ≤ text.length then some ((text.take stop).drop start) else none

/-- The first character boundary that is met going down from a column; below the first column there is
none. -/
def descend? (line : List Char) : Nat → Option Nat
  | 0 => if IsBoundary 0 line then some 0 else none
  | n + 1 => if IsBoundary (n + 1) line then some (n + 1) else descend? line n

/-- The last character boundary at or before a column, looked for from the end of the line at most. -/
def floorColumn? (column : Nat) (line : List Char) : Option Nat :=
  descend? line (min column (width line))

theorem minus?_eq {a b : Nat} (h : b ≤ a) : minus? a b = some (a - b) := if_pos h

theorem part?_eq {start stop : Nat} {text : List Char} (hle : start ≤ stop) (h : stop ≤ text.length) :
    part? start stop text = some ((text.take stop).drop start) := if_pos ⟨hle, h⟩

theorem cut?_append (a b : List Char) : cut? (width a) (a ++ b) = some (a, b) := by
  rw [cut?, if_pos (isBoundary_width_append a b), before_width, after_width]

theorem slice?_append (a b c : List Char) :
    slice? (width a) (width (a ++ b)) (a ++ b ++ c) = some b := by
  have hstart : IsBoundary (width a) (a ++ b ++ c) :=
    List.append_assoc a b c ▸ isBoundary_width_append a (b ++ c)
  have hle : width a ≤ width (a ++ b) := by
    rw [width_append]
    exact Nat.le_add_right _ _
  rw [slice?, if_pos ⟨hle, hstart, isBoundary_width_append _ _⟩, between, before_width, after_width]

/-- Between the columns a line fits into and those asked for nothing changes. -/
theorem before_eq_of_width_le {m n : Nat} {line : List Char} (hmn : n ≤ m)
    (h : width (before m line) ≤ n) : before n line = before m line := by
  induction line generalizing m n with
  | nil => rfl
  | cons c cs ih =>
    by_cases hm : c.utf8Size ≤ m
    · rw [before, if_pos hm, width_cons] at h
      have hn : c.utf8Size ≤ n := by omega
      rw [before, before, if_pos hn, if_pos hm,
        ih (m := m - c.utf8Size) (n := n - c.utf8Size) (by omega) (by omega)]
    · rw [before, before, if_neg hm, if_neg (by omega)]

theorem descend?_eq (line : List Char) (column : Nat) :
    descend? line column = some (floorColumn column line) := by
  induction column with
  | zero =>
    have hzero : IsBoundary 0 line := Nat.le_zero.1 (floorColumn_le 0 line)
    rw [descend?, if_pos hzero]
    exact congrArg some hzero.symm
  | succ n ih =>
    rw [descend?]
    split
    · next h => exact congrArg some h.symm
    · next h =>
      have hle : width (before (n + 1) line) ≤ n :=
        Nat.le_of_lt_succ (Nat.lt_of_le_of_ne (floorColumn_le (n + 1) line) h)
      rw [ih, floorColumn, before_eq_of_width_le (Nat.le_succ n) hle]
      rfl

theorem cut?_floorColumn (column : Nat) (line : List Char) :
    cut? (floorColumn column line) line = some (before column line, after column line) := by
  rw [cut?, if_pos (isBoundary_floorColumn column line), before_floorColumn, after_floorColumn]

/-- Going down from a column ends at the boundary that is meant. -/
theorem floorColumn?_eq (column : Nat) (line : List Char) :
    floorColumn? column line = some (floorColumn column line) := by
  rw [floorColumn?, descend?_eq, floorColumn,
    before_eq_of_width_le (Nat.min_le_left column (width line))
      (Nat.le_min.2 ⟨floorColumn_le column line, floorColumn_le_width column line⟩)]
  rfl

end CodeEditing.Text
