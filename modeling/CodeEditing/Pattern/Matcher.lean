import CodeEditing.Pattern.Basic

/-! Matchers: patterns as steps to be followed.

A matcher has a list of steps, each named by its place in the list. `Pattern.code` writes the steps
of a pattern from a given place on and leads every match of it to a given next place; the first of
the steps is where a match begins. `length_code` says how many steps there are, so that the steps of
the parts of a pattern can be placed one behind the other. -/
namespace CodeEditing

/-- What is done at a place of the list: a character of a set is taken, a condition is checked, the
first of two ways is tried before the second, a group is opened or closed, or a match is
complete. -/
inductive Step where
  | take (s : CharSet) (next : Nat)
  | check (a : Anchor) (next : Nat)
  | fork (first second : Nat)
  | skip (next : Nat)
  | opening (next : Nat)
  | closing (number next : Nat)
  | done
  deriving Repr, DecidableEq

/-- Two ways, the first of them preferred when `greedy`. -/
def Step.choose (greedy : Bool) (first second : Nat) : Step :=
  if greedy then fork first second else fork second first

namespace Pattern

/-- How many steps a pattern takes. -/
def steps : Pattern → Nat
  | empty | one _ | anchor _ => 1
  | text cs => max cs.length 1
  | seq p q => p.steps + q.steps
  | alt p q => p.steps + q.steps + 1
  | group _ p => p.steps + 2
  | times _ 0 none p => if p.takesSome then p.steps + 1 else p.steps + 2
  | times _ (lo + 1) none p => (lo + 1) * p.steps + 1
  | times _ lo (some hi) p => max (lo * p.steps + (hi - lo) * (p.steps + 1)) 1

/-- The steps that take the characters of a text. -/
def textCode (base next : Nat) : List Char → List Step
  | [] => [.skip next]
  | [c] => [.take (.only c) next]
  | c :: cs => .take (.only c) (base + 1) :: textCode (base + 1) next cs

/-- `n` times the same, each `size` steps long: `part i` is what stands at the `i`-th place. -/
def rowOf (n size base : Nat) (part : Nat → Nat → List Step) : List Step :=
  (List.range n).flatMap fun i => part i (base + i * size)

/-- `n` matches of a pattern whose steps are written by `body`. -/
def copies (body : Nat → Nat → List Step) (size n base next : Nat) : List Step :=
  rowOf n size base fun i at_ => body at_ (if i + 1 = n then next else at_ + size)

/-- Up to `n` matches of a pattern whose steps are written by `body`. -/
def options (greedy : Bool) (body : Nat → Nat → List Step) (size n base next : Nat) : List Step :=
  rowOf n (size + 1) base fun i at_ =>
    .choose greedy (at_ + 1) next :: body (at_ + 1) (if i + 1 = n then next else at_ + size + 1)

/-- The steps of a pattern from the place `base` on; a match of it leads to `next`. What can match
the empty text is repeated any number of times by choosing between nothing and one or more. -/
def code : Pattern → Nat → Nat → List Step
  | empty, _, next => [.skip next]
  | text cs, base, next => textCode base next cs
  | one s, _, next => [.take s next]
  | anchor a, _, next => [.check a next]
  | seq p q, base, next => p.code base (base + p.steps) ++ q.code (base + p.steps) next
  | alt p q, base, next =>
    .fork (base + 1) (base + 1 + p.steps) :: p.code (base + 1) next ++
      q.code (base + 1 + p.steps) next
  | group n p, base, next =>
    .opening (base + 1) :: p.code (base + 1) (base + 1 + p.steps) ++ [.closing n next]
  | times greedy 0 none p, base, next =>
    if p.takesSome then .choose greedy (base + 1) next :: p.code (base + 1) base
    else
      .choose greedy (base + 1) next :: p.code (base + 1) (base + 1 + p.steps) ++
        [.choose greedy (base + 1) next]
  | times greedy (lo + 1) none p, base, next =>
    let last := base + lo * p.steps
    copies p.code p.steps lo base last ++ p.code last (last + p.steps) ++
      [.choose greedy last next]
  | times greedy lo (some hi) p, base, next =>
    if lo = 0 && hi = 0 then [.skip next]
    else
      let between := base + lo * p.steps
      copies p.code p.steps lo base (if hi ≤ lo then next else between) ++
        options greedy p.code p.steps (hi - lo) between next

theorem length_textCode (base next : Nat) (cs : List Char) :
    (textCode base next cs).length = max cs.length 1 := by
  induction cs generalizing base with
  | nil => rfl
  | cons c cs ih =>
    cases cs with
    | nil => rfl
    | cons d ds =>
      rw [textCode, List.length_cons, ih]
      · simp only [List.length_cons]
        omega
      · simp

theorem length_rowOf {n size base : Nat} {part : Nat → Nat → List Step}
    (h : ∀ i at_, (part i at_).length = size) : (rowOf n size base part).length = n * size := by
  rw [rowOf, List.length_flatMap]
  have : (List.range n).map (fun i => (part i (base + i * size)).length) =
      List.replicate n size := by
    rw [List.eq_replicate_iff]
    simp [h]
  rw [this, List.sum_replicate_nat]

theorem length_copies {body : Nat → Nat → List Step} {size n base next : Nat}
    (h : ∀ b e, (body b e).length = size) : (copies body size n base next).length = n * size :=
  length_rowOf fun _ _ => h _ _

theorem length_options {greedy : Bool} {body : Nat → Nat → List Step} {size n base next : Nat}
    (h : ∀ b e, (body b e).length = size) :
    (options greedy body size n base next).length = n * (size + 1) :=
  length_rowOf fun _ _ => by simp [h]

theorem steps_pos (p : Pattern) : 0 < p.steps := by
  induction p with
  | empty | one _ | anchor _ => exact Nat.one_pos
  | text cs => rw [steps]; omega
  | seq p q ihp ihq | alt p q ihp ihq => rw [steps]; omega
  | group n p ih => rw [steps]; omega
  | times greedy lo hi p ih =>
    match lo, hi with
    | 0, none => rw [steps]; split <;> omega
    | lo + 1, none => rw [steps]; omega
    | lo, some hi => rw [steps]; omega

/-- A pattern has as many steps as it says. -/
theorem length_code (p : Pattern) (base next : Nat) : (p.code base next).length = p.steps := by
  induction p generalizing base next with
  | empty | one _ | anchor _ => rfl
  | text cs => exact length_textCode base next cs
  | seq p q ihp ihq => simp [code, steps, ihp, ihq]
  | alt p q ihp ihq => simp [code, steps, ihp, ihq]
  | group n p ih => simp [code, steps, ih]
  | times greedy lo hi p ih =>
    match lo, hi with
    | 0, none => by_cases h : p.takesSome = true <;> simp [code, steps, h, ih]
    | lo + 1, none =>
      simp only [code, steps, List.length_append, length_copies ih, ih, List.length_singleton,
        Nat.succ_mul]
    | lo, some hi =>
      by_cases h : lo = 0 ∧ hi = 0
      · simp [code, steps, h.1, h.2]
      · have hs : 1 ≤ lo * p.steps + (hi - lo) * (p.steps + 1) := by
          rcases Nat.eq_zero_or_pos lo with rfl | hlo
          · have : 1 ≤ hi * (p.steps + 1) := Nat.mul_pos (by omega) (by omega)
            simpa using this
          · have := Nat.mul_pos hlo p.steps_pos
            omega
        simp only [code, steps, Bool.and_eq_true, decide_eq_true_eq, h, if_false,
          List.length_append, length_copies ih, length_options ih]
        omega

end Pattern

/-- Steps to be followed from the first on. `held` tells that every match begins where the text
begins, `groupCount` is the highest group number. -/
structure Matcher where
  steps : Array Step
  held : Bool
  groupCount : Nat
  deriving Repr, DecidableEq

/-- The one that matches nowhere. -/
def Matcher.never : Matcher := ⟨#[], true, 0⟩

/-- The steps of a pattern, and a last one where a match is complete. -/
def Pattern.matcher (p : Pattern) : Matcher :=
  ⟨(p.code 0 p.steps ++ [Step.done]).toArray, p.beginsAt .textStart, p.groupCount⟩

end CodeEditing
