import CodeEditing.Document.Brackets
import CodeEditing.Proofs.Document.FlatText
import Mathlib.Data.List.Basic

/-! The characters of a document in reading order.

`charAt?` is the character at a position, and the cells of lines are these characters, each at its
position (`mem_cellsFrom_iff`), in reading order (`pairwise_cellsFrom`). A cut has the cells before its
position on one side and those behind it on the other, and a character stands between the two
(`Cut.cells_eq`, `cells_at`). -/
namespace CodeEditing.Document

/-- The position one column on. -/
def Position.onward (p : Position) : Position := ⟨p.row, p.column + 1⟩

theorem Position.lt_asymm {p q : Position} (h : p < q) : ¬q < p := by
  simp only [lt_def] at h ⊢
  omega

theorem Position.lt_irrefl (p : Position) : ¬p < p := fun h => lt_asymm h h

/-! ### Characters at positions -/

/-- The character that begins at a position. -/
def charAt? (lines : List Line) (p : Position) : Option Char :=
  lines[p.row]?.bind fun line =>
    if Text.IsBoundary p.column line then (Text.after p.column line).head? else none

theorem lineAt_eq (lines : List Line) (row : Nat) : lineAt lines row = lines[row]?.getD [] :=
  List.getD_eq_getElem?_getD

theorem lineAt_of_getElem? {lines : List Line} {row : Nat} {line : Line}
    (h : lines[row]? = some line) : lineAt lines row = line := by
  rw [lineAt_eq, h, Option.getD_some]

/-- A row is one of the text, or there is nothing in it. -/
theorem getElem?_of_lineAt_ne_nil {lines : List Line} {row : Nat} (h : lineAt lines row ≠ []) :
    lines[row]? = some (lineAt lines row) := by
  cases hrow : lines[row]? with
  | none => exact absurd (by rw [lineAt_eq, hrow, Option.getD_none]) h
  | some line => rw [lineAt_of_getElem? hrow]

theorem getElem?_of_lt {lines : List Line} {row : Nat} (h : row < lines.length) :
    lines[row]? = some (lineAt lines row) := by
  rw [lineAt_eq, List.getElem?_eq_getElem h, Option.getD_some]

theorem charAt?_width {lines : List Line} {row : Nat} {a b : Line}
    (h : lines[row]? = some (a ++ b)) : charAt? lines ⟨row, Text.width a⟩ = b.head? := by
  rw [charAt?, h, Option.bind_some, if_pos (Text.isBoundary_width_append a b), Text.after_width]

theorem Cut.charAt?_eq (c : Cut) : charAt? c.lines c.position = c.right.head? :=
  charAt?_width (by simp [lines])

/-- Where a character is, lines can be cut in front of it. -/
theorem exists_cut_of_charAt? {lines : List Line} {p : Position} {ch : Char}
    (h : charAt? lines p = some ch) :
    ∃ c : Cut, c.lines = lines ∧ c.position = p ∧ c.right.head? = some ch := by
  obtain ⟨line, hrow, hchar⟩ := Option.bind_eq_some_iff.1 h
  obtain ⟨hboundary, -⟩ := Option.ite_none_right_eq_some.1 hchar
  have hlies : LiesIn p lines :=
    ⟨(List.getElem?_eq_some_iff.1 hrow).1, (lineAt_of_getElem? hrow).symm ▸ hboundary⟩
  obtain ⟨c, rfl, rfl⟩ := hlies.exists_cut
  exact ⟨c, rfl, rfl, c.charAt?_eq ▸ h⟩

/-! ### Cells in reading order -/

theorem cellsOf_append (row column : Nat) (a b : Line) :
    cellsOf row column (a ++ b) = cellsOf row column a ++ cellsOf row (column + Text.width a) b := by
  induction a generalizing column with
  | nil => rfl
  | cons c cs ih => simp only [List.cons_append, cellsOf, ih, Text.width_cons, Nat.add_assoc]

theorem cellsFrom_append (row : Nat) (a b : List Line) :
    cellsFrom row (a ++ b) = cellsFrom row a ++ cellsFrom (row + a.length) b := by
  induction a generalizing row with
  | nil => rfl
  | cons l ls ih =>
    simp only [List.cons_append, cellsFrom, ih, List.append_assoc, List.length_cons, Nat.add_assoc,
      Nat.add_comm 1]

theorem mem_cellsOf {row column : Nat} {cs : Line} {x : Cell} (h : x ∈ cellsOf row column cs) :
    ∃ a b, cs = a ++ x.char :: b ∧ x.at_ = ⟨row, column + Text.width a⟩ := by
  induction cs generalizing column with
  | nil => exact absurd h List.not_mem_nil
  | cons c cs ih =>
    rcases List.mem_cons.1 h with rfl | h
    · exact ⟨[], cs, rfl, rfl⟩
    · obtain ⟨a, b, rfl, hat⟩ := ih h
      exact ⟨c :: a, b, rfl, by rw [hat, Text.width_cons, Nat.add_assoc]⟩

theorem mem_cellsFrom {row : Nat} {lines : List Line} {x : Cell} (h : x ∈ cellsFrom row lines) :
    ∃ i a b, lines[i]? = some (a ++ x.char :: b) ∧ x.at_ = ⟨row + i, Text.width a⟩ := by
  induction lines generalizing row with
  | nil => exact absurd h List.not_mem_nil
  | cons l ls ih =>
    rcases List.mem_append.1 h with h | h
    · obtain ⟨a, b, rfl, hat⟩ := mem_cellsOf h
      exact ⟨0, a, b, rfl, by rw [hat, Nat.zero_add]; rfl⟩
    · obtain ⟨i, a, b, hi, hat⟩ := ih h
      exact ⟨i + 1, a, b, hi, by rw [hat, Nat.add_assoc, Nat.add_comm 1]⟩

theorem pairwise_cellsOf (row column : Nat) (cs : Line) :
    (cellsOf row column cs).Pairwise fun x y => x.at_ < y.at_ := by
  induction cs generalizing column with
  | nil => exact .nil
  | cons c cs ih =>
    refine List.pairwise_cons.2 ⟨fun x hx => ?_, ih _⟩
    obtain ⟨a, -, -, hat⟩ := mem_cellsOf hx
    have := c.utf8Size_pos
    rw [hat]
    exact .inr ⟨rfl, by dsimp only; omega⟩

/-- Cells are in reading order. -/
theorem pairwise_cellsFrom (row : Nat) (lines : List Line) :
    (cellsFrom row lines).Pairwise fun x y => x.at_ < y.at_ := by
  induction lines generalizing row with
  | nil => exact .nil
  | cons l ls ih =>
    refine List.pairwise_append.2 ⟨pairwise_cellsOf row 0 l, ih _, fun x hx y hy => .inl ?_⟩
    obtain ⟨a, -, -, hx⟩ := mem_cellsOf hx
    obtain ⟨i, b, -, -, hy⟩ := mem_cellsFrom hy
    rw [hx, hy]
    dsimp only
    omega

namespace Cut
variable (c : Cut)

theorem cellsBefore_eq : cellsBefore c.lines c.position =
    (cellsFrom 0 c.above ++ cellsOf c.above.length 0 c.left).reverse := by
  rw [cellsBefore, c.take_lines, c.before_lines]
  rfl

theorem cellsBehind_eq : cellsBehind c.lines c.position =
    cellsOf c.above.length (Text.width c.left) c.right ++ cellsFrom (c.above.length + 1) c.below := by
  have hrows : c.lines.drop c.position.row = (c.left ++ c.right) :: c.below := List.drop_left
  have hfloor : Text.floorColumn c.position.column (c.left ++ c.right) = Text.width c.left :=
    Text.isBoundary_width_append _ _
  rw [cellsBehind, hrows]
  dsimp only
  rw [hfloor, position, Text.after_width]

/-- The cells of lines are those before a cut and those behind it. -/
theorem cells_eq : cellsFrom 0 c.lines =
    (cellsBefore c.lines c.position).reverse ++ cellsBehind c.lines c.position := by
  rw [cellsBefore_eq, cellsBehind_eq, List.reverse_reverse, lines, cellsFrom_append, cellsFrom,
    cellsOf_append]
  simp only [Nat.zero_add, List.append_assoc]

end Cut

section
variable {lines : List Line} {p : Position} {ch : Char}

/-- What is before and behind a position on either side of a character. -/
theorem cells_beside (h : charAt? lines p = some ch) :
    cellsBehind lines p = ⟨p, ch⟩ :: cellsBehind lines ⟨p.row, p.column + ch.utf8Size⟩ ∧
      cellsBefore lines ⟨p.row, p.column + ch.utf8Size⟩ = ⟨p, ch⟩ :: cellsBefore lines p := by
  obtain ⟨c, rfl, rfl, hhead⟩ := exists_cut_of_charAt? h
  obtain ⟨right, hright⟩ := List.head?_eq_some_iff.1 hhead
  have hlines : (Cut.mk c.above (c.left ++ [ch]) right c.below).lines = c.lines := by
    simp [Cut.lines, hright]
  have hposition : (Cut.mk c.above (c.left ++ [ch]) right c.below).position =
      ⟨c.position.row, c.position.column + ch.utf8Size⟩ := by
    simp [Cut.position]
  rw [← hposition]
  constructor
  · rw [c.cellsBehind_eq, ← hlines, Cut.cellsBehind_eq, hright, cellsOf]
    simp [Cut.position]
  · rw [c.cellsBefore_eq, ← hlines, Cut.cellsBefore_eq]
    dsimp only
    rw [cellsOf_append]
    simp [cellsOf, Cut.position]

/-- The row of a character up to it, and the row up to the position behind it. -/
theorem before_beside (h : charAt? lines p = some ch) :
    Text.before (p.column + ch.utf8Size) (lineAt lines p.row) =
      Text.before p.column (lineAt lines p.row) ++ [ch] := by
  obtain ⟨c, rfl, rfl, hhead⟩ := exists_cut_of_charAt? h
  obtain ⟨right, hright⟩ := List.head?_eq_some_iff.1 hhead
  have hline : lineAt c.lines c.position.row = (c.left ++ [ch]) ++ right := by
    rw [c.lineAt_lines, hright, List.append_assoc]
    rfl
  have hwidth : c.position.column + ch.utf8Size = Text.width (c.left ++ [ch]) := by
    simp [Cut.position]
  rw [c.before_lines, hline, hwidth, Text.before_width]

/-- A character stands between the cells before it and those behind it. -/
theorem cells_at (h : charAt? lines p = some ch) : cellsFrom 0 lines =
    (cellsBefore lines p).reverse ++
      ⟨p, ch⟩ :: cellsBehind lines ⟨p.row, p.column + ch.utf8Size⟩ := by
  rw [← (cells_beside h).1]
  obtain ⟨c, rfl, rfl, -⟩ := exists_cut_of_charAt? h
  exact c.cells_eq

end

/-- Cells are the characters of lines, each at its position. -/
theorem mem_cellsFrom_iff {lines : List Line} {x : Cell} :
    x ∈ cellsFrom 0 lines ↔ charAt? lines x.at_ = some x.char := by
  constructor
  · intro h
    obtain ⟨i, a, b, hi, hat⟩ := mem_cellsFrom h
    rw [hat, Nat.zero_add, charAt?_width hi]
    rfl
  · intro h
    rw [cells_at h]
    exact List.mem_append_right _ List.mem_cons_self

/-- Where a cell is among those of lines, the ones before it and the ones behind it are on its sides. -/
theorem cells_split {lines : List Line} {x : Cell} {a b : List Cell}
    (h : cellsFrom 0 lines = a ++ x :: b) : cellsBefore lines x.at_ = a.reverse ∧
      cellsBehind lines ⟨x.at_.row, x.at_.column + x.char.utf8Size⟩ = b := by
  have hmem : x ∈ cellsFrom 0 lines := h ▸ List.mem_append_right a List.mem_cons_self
  have hsorted := pairwise_cellsFrom 0 lines
  have hat := cells_at (mem_cellsFrom_iff.1 hmem)
  rw [h] at hat hsorted
  obtain ⟨-, hb, ha⟩ := List.pairwise_append.1 hsorted
  have hnota : x ∉ a := fun hx => Position.lt_irrefl _ (ha x hx x List.mem_cons_self)
  have hnotb : x ∉ b := fun hx => Position.lt_irrefl _ ((List.pairwise_cons.1 hb).1 x hx)
  obtain ⟨ha, -, hb⟩ := (List.append_cons_inj_of_notMem hnota hnotb).1 hat
  exact ⟨by rw [ha, List.reverse_reverse], hb.symm⟩

end CodeEditing.Document
