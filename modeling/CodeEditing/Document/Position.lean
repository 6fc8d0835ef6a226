/-! Positions in a text and the ranges between them.

A position is a row and a column of that row; positions are ordered as they are read. A range is
half open and knows its earlier end first: `Range.ofPoints_start_le_stop`. -/
namespace CodeEditing.Document

structure Position where
  row : Nat
  column : Nat
  deriving Repr, DecidableEq, Inhabited

namespace Position

def origin : Position := ⟨0, 0⟩

instance : LE Position := ⟨fun a b => a.row < b.row ∨ (a.row = b.row ∧ a.column ≤ b.column)⟩

instance : LT Position := ⟨fun a b => a.row < b.row ∨ (a.row = b.row ∧ a.column < b.column)⟩

instance (a b : Position) : Decidable (a ≤ b) := inferInstanceAs (Decidable (_ ∨ _))

instance (a b : Position) : Decidable (a < b) := inferInstanceAs (Decidable (_ ∨ _))

theorem le_def {a b : Position} :
    a ≤ b ↔ a.row < b.row ∨ (a.row = b.row ∧ a.column ≤ b.column) := Iff.rfl

theorem lt_def {a b : Position} :
    a < b ↔ a.row < b.row ∨ (a.row = b.row ∧ a.column < b.column) := Iff.rfl

theorem le_total (a b : Position) : a ≤ b ∨ b ≤ a := by
  simp only [le_def]; omega

def text (p : Position) : String := s!"{p.row}:{p.column}"

end Position

/-- The text between two positions. -/
structure Range where
  start : Position
  stop : Position
  deriving Repr, DecidableEq, Inhabited

namespace Range

/-- The range between two positions in either order. -/
def ofPoints (a b : Position) : Range := if a ≤ b then ⟨a, b⟩ else ⟨b, a⟩

def isEmpty (r : Range) : Bool := r.start == r.stop

def isMultiLine (r : Range) : Bool := r.start.row != r.stop.row

def contains (r : Range) (p : Position) : Bool := r.start ≤ p && p < r.stop

def text (r : Range) : String := s!"{r.start.text}-{r.stop.text}"

theorem ofPoints_start_le_stop (a b : Position) : (ofPoints a b).start ≤ (ofPoints a b).stop := by
  by_cases h : a ≤ b
  · simp [ofPoints, h]
  · simpa [ofPoints, h] using (Position.le_total a b).resolve_left h

end Range

end CodeEditing.Document
