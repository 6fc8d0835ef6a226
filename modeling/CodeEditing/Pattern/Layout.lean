/-! The room that a machine takes.

A machine is laid out state by state, and a state is numbered by how many there are before it. A
state takes 32, each range of bytes that leads on from it 8 more, and each way that leads on without
a byte 4 more. Laying out comes to an end with `none` as soon as the machine is larger than
`sizeLimit`.

`Fitting f n` says that `f` finds room wherever `n` is left, and takes no more than that. -/
namespace CodeEditing

def stateSize : Nat := 32

def rangeSize : Nat := 8

def waySize : Nat := 4

/-- Ten times 2 ^ 20. -/
def sizeLimit : Nat := 10485760

/-- What has been laid out: how many states, and the room that they take beyond `stateSize` each. -/
structure Layout where
  states : Nat
  more : Nat
  deriving Repr, DecidableEq

namespace Layout

def size (l : Layout) : Nat := stateSize * l.states + l.more

def zero : Layout := ⟨0, 0⟩

instance : Append Layout := ⟨fun l m => ⟨l.states + m.states, l.more + m.more⟩⟩

/-- What all members of a list take together. -/
def ofAll {α : Type} (layout : α → Layout) : List α → Layout
  | [] => zero
  | a :: as => layout a ++ ofAll layout as

/-- Nothing when there is no room for it. -/
def within? (l : Layout) : Option Layout := if l.size ≤ sizeLimit then some l else none

@[simp] theorem size_append (l m : Layout) : (l ++ m).size = l.size + m.size := by
  show stateSize * (l.states + m.states) + (l.more + m.more) = _
  simp only [size, Nat.mul_add]
  omega

end Layout

/-- Lays out a part behind what there is. -/
abbrev Laying := Layout → Option Layout

namespace Laying

/-- A part laid out `n` times. -/
def again (f : Laying) : Nat → Laying
  | 0, l => some l
  | n + 1, l =>
    match f l with
    | some l => again f n l
    | none => none

/-- There is room for `f` wherever `n` is left, and it takes no more. -/
def Fitting (f : Laying) (n : Nat) : Prop :=
  ∀ l : Layout, l.size + n ≤ sizeLimit → ∃ l', f l = some l' ∧ l'.size ≤ l.size + n

theorem Fitting.within {f : Layout → Layout} {n : Nat} (h : ∀ l, (f l).size ≤ l.size + n) :
    Fitting (fun l => (f l).within?) n := fun l hl =>
  ⟨f l, if_pos (Nat.le_trans (h l) hl), h l⟩

theorem Fitting.bind {f g : Laying} {n m : Nat} (hf : Fitting f n) (hg : Fitting g m) :
    Fitting (fun l => (f l).bind g) (n + m) := fun l hl => by
  obtain ⟨l₁, h₁, hn⟩ := hf l (by omega)
  obtain ⟨l₂, h₂, hm⟩ := hg l₁ (by omega)
  exact ⟨l₂, by simp [h₁, h₂], by omega⟩

theorem Fitting.again {f : Laying} {n : Nat} (h : Fitting f n) (k : Nat) :
    Fitting (f.again k) (k * n) := by
  induction k with
  | zero => exact fun l _ => ⟨l, rfl, Nat.le_add_right _ _⟩
  | succ k ih =>
    intro l hl
    rw [Nat.succ_mul] at hl ⊢
    obtain ⟨l₁, h₁, hn⟩ := h l (by omega)
    obtain ⟨l₂, h₂, hm⟩ := ih l₁ (by omega)
    exact ⟨l₂, by simp [Laying.again, h₁, h₂], by omega⟩

end Laying

end CodeEditing
