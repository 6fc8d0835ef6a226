import CodeEditing.Lint.Brackets

/-! Well-nested brackets.

`WellNested` is a grammar: nothing, or a bracket with its partner, something well nested between them
and behind them. Looking for the first fault reads from front to back instead and keeps the brackets
it waits for; `seekFault_eq_none_iff` says that it finds none exactly where brackets are well
nested. -/
namespace CodeEditing.Lint

open Document (Cell closerOf?)

/-- Every closing bracket is the partner of the innermost open one, and nothing stays open. -/
inductive WellNested : List Char → Prop
  | nil : WellNested []
  | wrap {o c : Char} {inner rest : List Char} (h : closerOf? o = some c) (hi : WellNested inner)
    (hr : WellNested rest) : WellNested (o :: (inner ++ c :: rest))

/-- Whether characters are well nested behind open brackets that wait for those of `waiting`, the
innermost first, and close them all. -/
def settles : List Char → List Char → Bool
  | waiting, [] => waiting.isEmpty
  | waiting, c :: cs =>
    match closerOf? c with
    | some closer => settles (closer :: waiting) cs
    | none =>
      match waiting with
      | [] => false
      | w :: ws => w == c && settles ws cs

theorem settles_open {waiting cs : List Char} {c closer : Char} (h : closerOf? c = some closer) :
    settles waiting (c :: cs) = settles (closer :: waiting) cs := by
  rw [settles.eq_def]
  simp only [h]

theorem settles_close {waiting cs : List Char} {c w : Char} (h : closerOf? c = none) :
    settles (w :: waiting) (c :: cs) = (w == c && settles waiting cs) := by
  rw [settles.eq_def]
  simp only [h]

theorem settles_stray {cs : List Char} {c : Char} (h : closerOf? c = none) :
    settles [] (c :: cs) = false := by
  rw [settles.eq_def]
  simp only [h]

/-- A bracket that closes another opens none. -/
theorem closerOf?_closer {o c : Char} (h : closerOf? o = some c) : closerOf? c = none := by
  unfold closerOf? at h
  split at h
  all_goals cases h
  all_goals rfl

theorem seekFault_eq_none {opened : List (Cell × Char)} {cells : List Cell} :
    seekFault opened cells = none ↔
      settles (opened.map Prod.snd) (cells.map Cell.char) = true := by
  induction cells generalizing opened with
  | nil =>
    cases opened with
    | nil => exact ⟨fun _ => rfl, fun _ => rfl⟩
    | cons p ps =>
      rw [seekFault, Option.map_eq_none_iff, List.getLast?_eq_none_iff]
      exact ⟨nofun, nofun⟩
  | cons cell cells ih =>
    rw [List.map_cons, seekFault.eq_def]
    cases hc : closerOf? cell.char with
    | some closer =>
      rw [settles_open hc]
      simp only [hc]
      exact ih
    | none =>
      cases opened with
      | nil =>
        rw [List.map_nil, settles_stray hc]
        simp [hc]
      | cons p ps =>
        rw [List.map_cons, settles_close hc]
        by_cases hp : p.2 = cell.char
        · simp [hc, hp, ih]
        · simp [hc, hp]

/-! ### What is well nested makes no difference -/

theorem settles_append {w : List Char} (h : WellNested w) (waiting rest : List Char) :
    settles waiting (w ++ rest) = settles waiting rest := by
  induction h generalizing waiting rest with
  | nil => rfl
  | @wrap o c inner more h _ _ ihi ihr =>
    rw [List.cons_append, settles_open h, List.append_assoc, ihi, List.cons_append,
      settles_close (closerOf?_closer h), beq_self_eq_true, Bool.true_and, ihr]

theorem settles_congr {x y : List Char} (h : ∀ waiting, settles waiting x = settles waiting y)
    (waiting front : List Char) : settles waiting (front ++ x) = settles waiting (front ++ y) := by
  induction front generalizing waiting with
  | nil => exact h waiting
  | cons c cs ih =>
    rw [List.cons_append, List.cons_append]
    cases hc : closerOf? c with
    | some closer => rw [settles_open hc, settles_open hc, ih]
    | none =>
      cases waiting with
      | nil => rw [settles_stray hc, settles_stray hc]
      | cons w ws => rw [settles_close hc, settles_close hc, ih]

/-! ### The grammar -/

theorem WellNested.append {a b : List Char} (ha : WellNested a) (hb : WellNested b) :
    WellNested (a ++ b) := by
  induction ha with
  | nil => exact hb
  | @wrap o c inner rest h hi _ _ ihr =>
    rw [List.cons_append, List.append_assoc, List.cons_append]
    exact .wrap h hi ihr

/-- Characters that are well nested but for the brackets they close. -/
inductive Settled : List Char → List Char → Prop
  | nil {cs : List Char} (h : WellNested cs) : Settled [] cs
  | cons {w : Char} {ws cs rest : List Char} (h : WellNested cs) (hr : Settled ws rest) :
    Settled (w :: ws) (cs ++ w :: rest)

theorem Settled.behind {waiting a rest : List Char} (ha : WellNested a)
    (h : Settled waiting rest) : Settled waiting (a ++ rest) := by
  cases h with
  | nil h => exact .nil (ha.append h)
  | cons h hr =>
    rw [← List.append_assoc]
    exact .cons (ha.append h) hr

theorem settled_of_settles {waiting cs : List Char} (h : settles waiting cs = true) :
    Settled waiting cs := by
  induction cs generalizing waiting with
  | nil =>
    obtain rfl := List.isEmpty_iff.1 h
    exact .nil .nil
  | cons c cs ih =>
    cases hc : closerOf? c with
    | some closer =>
      rw [settles_open hc] at h
      cases ih h with
      | @cons _ _ inner rest hi hr =>
        have hpair : WellNested (c :: (inner ++ closer :: [])) := .wrap hc hi .nil
        have := Settled.behind hpair hr
        rwa [List.cons_append, List.append_assoc, List.cons_append, List.nil_append] at this
    | none =>
      cases waiting with
      | nil =>
        rw [settles_stray hc] at h
        exact nomatch h
      | cons w ws =>
        rw [settles_close hc] at h
        obtain ⟨hw, hcs⟩ := Bool.and_eq_true_iff.1 h
        obtain rfl := eq_of_beq hw
        exact .cons .nil (ih hcs)

theorem settles_nil_iff {cs : List Char} : settles [] cs = true ↔ WellNested cs := by
  constructor
  · intro h
    cases settled_of_settles h with
    | nil h => exact h
  · intro h
    have := settles_append h [] []
    rw [List.append_nil] at this
    rw [this]
    rfl

instance (cs : List Char) : Decidable (WellNested cs) :=
  decidable_of_iff (settles [] cs = true) settles_nil_iff

/-- **No fault is found exactly where brackets are well nested.** -/
theorem seekFault_eq_none_iff {cells : List Cell} :
    seekFault [] cells = none ↔ WellNested (cells.map Cell.char) :=
  seekFault_eq_none.trans settles_nil_iff

end CodeEditing.Lint
