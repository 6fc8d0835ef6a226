/-! Columns of a line.

A line is a list of characters. Its columns are counted in the bytes of its UTF-8 form, so a
character is one to four columns wide and a column may fall inside a character. `before` and
`after` cut a line at the last character boundary at or before a column: `before_append_after`
says nothing is lost, `width_before_le` that the cut is not past the column, and
`before_width` that a column which is a boundary is met exactly. -/
namespace CodeEditing.Text

/-- Number of columns a line takes. -/
def width : List Char → Nat
  | [] => 0
  | c :: cs => c.utf8Size + width cs

@[simp] theorem width_nil : width [] = 0 := rfl

@[simp] theorem width_cons (c : Char) (cs : List Char) :
    width (c :: cs) = c.utf8Size + width cs := rfl

@[simp] theorem width_append (a b : List Char) : width (a ++ b) = width a + width b := by
  induction a with
  | nil => simp
  | cons c cs ih => simp [ih, Nat.add_assoc]

@[simp] theorem width_reverse (a : List Char) : width a.reverse = width a := by
  induction a with
  | nil => rfl
  | cons c cs ih => simp [ih, Nat.add_comm]

theorem width_pos {cs : List Char} (h : cs ≠ []) : 0 < width cs := by
  cases cs with
  | nil => exact absurd rfl h
  | cons c cs => have := c.utf8Size_pos; simp only [width_cons]; omega

theorem width_eq_zero {cs : List Char} : width cs = 0 ↔ cs = [] := by
  constructor
  · intro h
    by_cases hc : cs = []
    · exact hc
    · have := width_pos hc; omega
  · rintro rfl; rfl

/-! ### Cutting at a column -/

/-- The longest beginning of a line that fits into `column` columns. -/
def before (column : Nat) : List Char → List Char
  | [] => []
  | c :: cs => if c.utf8Size ≤ column then c :: before (column - c.utf8Size) cs else []

/-- What follows the longest beginning that fits into `column` columns. -/
def after (column : Nat) : List Char → List Char
  | [] => []
  | c :: cs => if c.utf8Size ≤ column then after (column - c.utf8Size) cs else c :: cs

@[simp] theorem before_append_after (column : Nat) (cs : List Char) :
    before column cs ++ after column cs = cs := by
  induction cs generalizing column with
  | nil => rfl
  | cons c cs ih => by_cases h : c.utf8Size ≤ column <;> simp [before, after, h, ih]

theorem width_before_le (column : Nat) (cs : List Char) : width (before column cs) ≤ column := by
  induction cs generalizing column with
  | nil => simp [before]
  | cons c cs ih =>
    by_cases h : c.utf8Size ≤ column
    · have := ih (column - c.utf8Size)
      simp only [before, h, if_true, width_cons]
      omega
    · simp [before, h]

@[simp] theorem before_width (a b : List Char) : before (width a) (a ++ b) = a := by
  induction a with
  | nil =>
    cases b with
    | nil => rfl
    | cons c cs =>
      have := c.utf8Size_pos
      have h : ¬ c.utf8Size ≤ 0 := by omega
      simp [before, h]
  | cons c cs ih =>
    have h : c.utf8Size ≤ c.utf8Size + width cs := by omega
    simp [before, h, ih]

@[simp] theorem after_width (a b : List Char) : after (width a) (a ++ b) = b := by
  have h := before_append_after (width a) (a ++ b)
  rw [before_width] at h
  exact List.append_cancel_left h

@[simp] theorem before_zero (cs : List Char) : before 0 cs = [] := by
  simpa using before_width [] cs

@[simp] theorem after_zero (cs : List Char) : after 0 cs = cs := by
  simpa using after_width [] cs

/-- The last character boundary at or before a column. -/
def floorColumn (column : Nat) (cs : List Char) : Nat := width (before column cs)

theorem floorColumn_le (column : Nat) (cs : List Char) : floorColumn column cs ≤ column :=
  width_before_le column cs

theorem floorColumn_le_width (column : Nat) (cs : List Char) : floorColumn column cs ≤ width cs := by
  have h := congrArg width (before_append_after column cs)
  simp only [width_append] at h
  simp only [floorColumn]
  omega

/-- A column that is a character boundary of a line. -/
def IsBoundary (column : Nat) (cs : List Char) : Prop := floorColumn column cs = column

instance (column : Nat) (cs : List Char) : Decidable (IsBoundary column cs) :=
  inferInstanceAs (Decidable (_ = _))

theorem isBoundary_width_append (a b : List Char) : IsBoundary (width a) (a ++ b) := by
  simp [IsBoundary, floorColumn]

@[simp] theorem before_floorColumn (column : Nat) (cs : List Char) :
    before (floorColumn column cs) cs = before column cs := by
  have h := before_width (before column cs) (after column cs)
  rwa [before_append_after] at h

@[simp] theorem after_floorColumn (column : Nat) (cs : List Char) :
    after (floorColumn column cs) cs = after column cs := by
  have h := after_width (before column cs) (after column cs)
  rwa [before_append_after] at h

theorem isBoundary_floorColumn (column : Nat) (cs : List Char) :
    IsBoundary (floorColumn column cs) cs := by
  rw [IsBoundary, floorColumn, before_floorColumn, floorColumn]

/-- The characters between two columns. -/
def between (start stop : Nat) (cs : List Char) : List Char :=
  after start (before stop cs)

end CodeEditing.Text
