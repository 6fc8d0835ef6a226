import CodeEditing.Pattern.ByteForm
import CodeEditing.Pattern.Layout

/-! The states for a set of characters.

A set of single bytes is two states. Any other set is laid out form by form. Where forms end alike, a
machine that reads forward has one state for what is left of them, and where they begin alike, one
that reads backward has one state for what they begin with. To that end the states made for a set are
remembered in slots. A state is looked for in one slot only, and a later state takes the slot from an
earlier one, so a state may be made more than once. The slot follows from the numbers of other
states: a set that is laid out again need not take the same room.

`Direction.size_layOut`: it is never more than the number of forms allows. -/
namespace CodeEditing

/-- The way in which a text is read. -/
inductive Direction where
  | forward
  | backward
  deriving Repr, DecidableEq

/-! ### States that are remembered -/

/-- What has been laid out, and in each slot a state with what tells it from others. No state is told
from others by nothing, which stands in an empty slot. -/
structure Pool where
  layout : Layout
  slots : Array (List Nat × Nat)

namespace Pool

/-- A pool that remembers no state yet. -/
def empty (slots : Nat) (l : Layout) : Pool := ⟨l, .replicate slots ([], 0)⟩

/-- The numbers mixed into one of 64 bits. -/
def mix (key : List Nat) : UInt64 :=
  key.foldl (fun h n => (h ^^^ n.toUInt64) * 1099511628211) 14695981039346656037

/-- The number of the state with this key. Unless it is remembered it is made, and takes `more` beyond
`stateSize`. -/
def state (key : List Nat) (more : Nat) : Pool → Nat × Pool
  | ⟨l, slots⟩ =>
    let slot := (mix key).toNat % slots.size
    let known := slots.getD slot ([], 0)
    if known.1 = key then (known.2, ⟨l, slots⟩)
    else (l.states, ⟨l ++ ⟨1, more⟩, slots.setIfInBounds slot (key, l.states)⟩)

theorem size_state (key : List Nat) (more : Nat) (p : Pool) :
    (p.state key more).2.layout.size ≤ p.layout.size + (stateSize + more) := by
  simp only [state]
  split
  · exact Nat.le_add_right _ _
  · rw [Layout.size_append]
    exact Nat.le_refl _

end Pool

/-! ### Forms -/

namespace ByteForm

/-- The forms by their first range, each with what follows it. Forms that begin alike stand
together. -/
def branches : List ByteForm → List (CharSet.Interval × List ByteForm)
  | [] => []
  | [] :: forms => branches forms
  | (first :: more) :: forms =>
    match branches forms with
    | [] => [(first, [more])]
    | b :: bs => if first = b.1 then (first, more :: b.2) :: bs else (first, [more]) :: b :: bs

/-- Lays out, reading forward, the forms or what is left of them behind some bytes: first what follows
each of the ranges, and then the state from which they lead on. Behind all forms is `target`, and none
is longer than the depth. -/
def layForward (target : Nat) : Nat → List ByteForm → Pool → Nat × Pool
  | 0, _, pool => (target, pool)
  | depth + 1, forms, pool =>
    if forms.all (·.isEmpty) then (target, pool)
    else
      let branches := branches forms
      let (key, pool) := branches.foldl (fun (key, pool) b =>
        let next := layForward target depth b.2 pool
        (next.1 :: b.1.2 :: b.1.1 :: key, next.2)) ([], pool)
      pool.state key.reverse (rangeSize * branches.length)

/-- Lays out a form, reading backward: its bytes from the first one on, and behind them `target`. -/
def layBackward (target : Nat) (form : ByteForm) (pool : Pool) : Pool :=
  (form.foldl (fun (next, pool) b => Pool.state [next, b.1, b.2] 0 pool) (target, pool)).2

/-- The branches hold no more forms than there are. -/
theorem sum_branches (forms : List ByteForm) :
    ((branches forms).map (·.2.length)).foldr (· + ·) 0 ≤ forms.length := by
  induction forms with
  | nil => simp [branches]
  | cons f forms ih =>
    cases f with
    | nil => simpa [branches] using Nat.le_succ_of_le ih
    | cons first more =>
      rw [branches]
      split
      · simp
      · next b bs hb =>
        rw [hb] at ih
        simp only [List.map_cons, List.foldr_cons] at ih
        split <;> simp only [List.map_cons, List.foldr_cons, List.length_cons, List.length_nil] <;>
          omega

theorem length_pos_of_mem_branches {forms : List ByteForm} {b : CharSet.Interval × List ByteForm}
    (h : b ∈ branches forms) : 1 ≤ b.2.length := by
  induction forms generalizing b with
  | nil => simp [branches] at h
  | cons f forms ih =>
    cases f with
    | nil => exact ih (by simpa [branches] using h)
    | cons first more =>
      rw [branches] at h
      split at h
      · simp_all
      · next c cs hc =>
        split at h
        · rcases List.mem_cons.1 h with rfl | h
          · simp
          · exact ih (by simp [hc, h])
        · rcases List.mem_cons.1 h with rfl | h
          · simp
          · exact ih (by simpa [hc] using h)

theorem length_branches (forms : List ByteForm) : (branches forms).length ≤ forms.length := by
  have h (bs : List (CharSet.Interval × List ByteForm)) (hb : ∀ b ∈ bs, 1 ≤ b.2.length) :
      bs.length ≤ (bs.map (·.2.length)).foldr (· + ·) 0 := by
    induction bs with
    | nil => simp
    | cons b bs ih =>
      have := hb b (by simp)
      have := ih fun c hc => hb c (by simp [hc])
      simp only [List.length_cons, List.map_cons, List.foldr_cons]
      omega
  exact Nat.le_trans (h _ fun _ hb => length_pos_of_mem_branches hb) (sum_branches forms)

/-- There is a state for each form and each byte of it at most. -/
theorem size_layForward (target depth : Nat) (forms : List ByteForm) (pool : Pool) :
    (layForward target depth forms pool).2.layout.size ≤
      pool.layout.size + 40 * depth * forms.length := by
  induction depth generalizing forms pool with
  | zero => simp [layForward]
  | succ depth ih =>
    rw [layForward]
    split
    · exact Nat.le_add_right _ _
    · next hne =>
      have hpos : 1 ≤ forms.length := by
        cases forms with
        | nil => simp at hne
        | cons f fs => simp
      have hb (bs : List (CharSet.Interval × List ByteForm)) (key : List Nat) (pool : Pool) :
          (bs.foldl (fun (key, pool) b =>
            let next := layForward target depth b.2 pool
            (next.1 :: b.1.2 :: b.1.1 :: key, next.2)) (key, pool)).2.layout.size ≤
            pool.layout.size + 40 * depth * (bs.map (·.2.length)).foldr (· + ·) 0 := by
        induction bs generalizing key pool with
        | nil => simp
        | cons b bs ihb =>
          have := ih b.2 pool
          refine Nat.le_trans (ihb _ (layForward target depth b.2 pool).2) ?_
          simp only [List.map_cons, List.foldr_cons, Nat.mul_add]
          omega
      have h1 := hb (branches forms) [] pool
      have h2 := Nat.mul_le_mul_left (40 * depth) (sum_branches forms)
      have h3 := length_branches forms
      refine Nat.le_trans (Pool.size_state _ _ _) (Nat.le_trans (Nat.add_le_add_right h1 _) ?_)
      simp only [stateSize, rangeSize, Nat.mul_add, Nat.add_mul]
      omega

theorem size_layBackward (target : Nat) (form : ByteForm) (pool : Pool) :
    (layBackward target form pool).layout.size ≤ pool.layout.size + 32 * form.length := by
  have hb (s : Nat × Pool) :
      (form.foldl (fun (next, pool) b => Pool.state [next, b.1, b.2] 0 pool) s).2.layout.size ≤
        s.2.layout.size + 32 * form.length := by
    induction form generalizing s with
    | nil => simp
    | cons b form ih =>
      have h1 := Pool.size_state [s.1, b.1, b.2] 0 s.2
      have h2 := ih (Pool.state [s.1, b.1, b.2] 0 s.2)
      simp only [List.foldl_cons, List.length_cons, stateSize] at *
      omega
  exact hb (target, pool)

theorem length_ofInterval_mem {i : CharSet.Interval} {f : ByteForm} (h : f ∈ ofInterval i) :
    f.length ≤ 4 := by
  simp only [ofInterval, List.mem_flatMap] at h
  obtain ⟨w, _, h⟩ := h
  split at h
  · obtain ⟨b, _, rfl⟩ := List.mem_map.1 h
    have := (length_bytesOf b.1).2
    simp only [List.length_zip]
    omega
  · simp at h

end ByteForm

/-! ### Sets -/

namespace Direction

/-- How many states of a set are remembered. -/
def slots : Direction → Nat
  | forward => 10000
  | backward => 1000

/-- Lays out the set with these forms. -/
def layOut (d : Direction) (forms : List ByteForm) (l : Layout) : Layout :=
  if forms.all (·.length == 1) then l ++ ⟨2, rangeSize * forms.length⟩
  else
    match d with
    | forward => (ByteForm.layForward l.states 4 forms (.empty d.slots (l ++ ⟨1, 0⟩))).2.layout
    | backward =>
      let pool := Pool.empty d.slots (l ++ ⟨2, waySize * forms.length⟩)
      (forms.foldl (fun pool f => f.layBackward (l.states + 1) pool) pool).layout

theorem size_layOut (d : Direction) {forms : List ByteForm} (h : ∀ f ∈ forms, f.length ≤ 4)
    (l : Layout) : (d.layOut forms l).size ≤ l.size + (64 + 160 * forms.length) := by
  simp only [layOut]
  split
  · rw [Layout.size_append]
    simp only [Layout.size, stateSize, rangeSize]
    omega
  · cases d with
    | forward =>
      refine Nat.le_trans (ByteForm.size_layForward _ _ _ _) ?_
      simp only [Pool.empty, Layout.size_append]
      simp only [Layout.size, stateSize]
      omega
    | backward =>
      have hb (forms : List ByteForm) (h : ∀ f ∈ forms, f.length ≤ 4) (pool : Pool) :
          (forms.foldl (fun pool f => f.layBackward (l.states + 1) pool) pool).layout.size ≤
            pool.layout.size + 128 * forms.length := by
        induction forms generalizing pool with
        | nil => simp
        | cons f forms ih =>
          have h1 := ByteForm.size_layBackward (l.states + 1) f pool
          have h2 := ih (fun g hg => h g (by simp [hg])) (f.layBackward (l.states + 1) pool)
          have h3 := h f (by simp)
          simp only [List.foldl_cons, List.length_cons]
          omega
      refine Nat.le_trans (hb forms h _) ?_
      simp only [Pool.empty, Layout.size_append]
      simp only [Layout.size, stateSize, waySize]
      omega

end Direction

namespace CharSet

/-- No less than what a set takes, read off its description. -/
def sizeBound (s : CharSet) : Nat := 64 + 3360 * s.intervalBound

theorem size_layOut_forms (d : Direction) (s : CharSet) (l : Layout) :
    (d.layOut s.forms l).size ≤ l.size + s.sizeBound := by
  refine Nat.le_trans (d.size_layOut ?_ l) ?_
  · intro f hf
    obtain ⟨i, _, hi⟩ := List.mem_flatMap.1 hf
    exact ByteForm.length_ofInterval_mem hi
  · have := s.length_forms_le
    simp only [sizeBound]
    omega

end CharSet

end CodeEditing
