import CodeEditing.Pattern.Basic
import CodeEditing.Pattern.SetStates

/-! How large a pattern is.

A machine can look for a pattern byte by byte. There are two of them: one reads forward and notes
where groups are opened and closed, and one reads backward. A pattern fits when there is room for
either. A `Plan` tells what is laid out and in what order. The order matters for sets alone.

Laying out sets takes long, so a plan is first measured with bounds in place of them. `fits_iff`:
that makes no difference to whether a pattern fits. -/
namespace CodeEditing

/-! ### Plans -/

/-- What is laid out for a machine: states, a set, one part behind another, a part many times. -/
inductive Plan (α : Type) where
  | states (l : Layout)
  | set (s : α)
  | both (a b : Plan α)
  | again (n : Nat) (a : Plan α)
  deriving Repr

namespace Plan

instance {α : Type} : Append (Plan α) := ⟨both⟩

/-- One state. -/
def state {α : Type} : Plan α := states ⟨1, 0⟩

/-- One state with two ways. -/
def fork {α : Type} : Plan α := states ⟨1, 2 * waySize⟩

def map {α β : Type} (f : α → β) : Plan α → Plan β
  | states l => states l
  | set s => set (f s)
  | both a b => both (a.map f) (b.map f)
  | again n a => again n (a.map f)

/-- Lays out a plan whose sets are given by their forms. -/
def layOut (d : Direction) : Plan (List ByteForm) → Laying
  | states m => fun l => (l ++ m).within?
  | set forms => fun l => (d.layOut forms l).within?
  | both a b => fun l => (a.layOut d l).bind (b.layOut d)
  | again n a => Laying.again (a.layOut d) n

/-- No less than the room for a plan. -/
def bound : Plan CharSet → Nat
  | states l => l.size
  | set s => s.sizeBound
  | both a b => a.bound + b.bound
  | again n a => n * a.bound

/-- Where there is room for the bound there is room for the plan. -/
theorem layOut_fitting (d : Direction) (a : Plan CharSet) :
    Laying.Fitting ((a.map CharSet.forms).layOut d) a.bound := by
  induction a with
  | states m => exact Laying.Fitting.within fun l => Nat.le_of_eq (Layout.size_append l m)
  | set s => exact Laying.Fitting.within (s.size_layOut_forms d)
  | both a b iha ihb => exact iha.bind ihb
  | again n a ih => exact ih.again n

end Plan

/-! ### Choices between words

Words that begin alike share states as far as a choice between them allows: a word that ends is
preferred to the words behind it, so these share no more with those before it. -/

namespace Pattern

/-- The words before each end of a word, and those behind the last. -/
def runsOf {α : Type} : List (List α) → List (List (List α))
  | [] => [[]]
  | [] :: words => [] :: runsOf words
  | w :: words =>
    match runsOf words with
    | [] => [[w]]
    | run :: runs => (w :: run) :: runs

/-- Each member of a list once. -/
def distinct {α : Type} [BEq α] : List α → List α
  | [] => []
  | a :: as => if as.contains a then distinct as else a :: distinct as

/-- The words in a list that begin with `b`, without it. -/
def behind (b : Nat) (words : List (List Nat)) : List (List Nat) :=
  words.filterMap fun
    | [] => none
    | c :: w => if c = b then some w else none

/-- What the words take, of which none is longer than `depth`, without the state behind all of them.
Words that end at one place before any goes on are one. -/
def wordStates : Nat → List (List Nat) → Layout
  | 0, _ => .zero
  | depth + 1, words =>
    if words.all (·.isEmpty) then .zero
    else
      let ended := words.takeWhile (·.isEmpty)
      let runs := runsOf (ended.take 1 ++ words.drop ended.length)
      let runStates (run : List (List Nat)) : Layout :=
        let firsts := distinct (run.filterMap List.head?)
        let ranges := if firsts.length ≤ 1 then 0 else rangeSize * firsts.length
        ⟨1, ranges + waySize⟩ ++ .ofAll (fun b => wordStates depth (behind b run)) firsts
      ⟨1, waySize * (runs.length - 1)⟩ ++ .ofAll runStates (runs.filter (!·.isEmpty))

/-- A choice between words. -/
def wordsLayout (d : Direction) (words : List (List Char)) : Layout :=
  let inBytes := words.map fun w =>
    match d with
    | .forward => ByteForm.bytesOfText w
    | .backward => (ByteForm.bytesOfText w).reverse
  ⟨1, 0⟩ ++ wordStates ((inBytes.map List.length).foldl max 0) inBytes

/-- The characters of a pattern for given ones. -/
def word? : Pattern → Option (List Char)
  | text cs => some cs
  | _ => none

/-! ### Patterns -/

/-- Where a part stands: not in a choice, as the second alternative of one, or as another. -/
inductive Place where
  | alone
  | second
  | among
  deriving Repr, DecidableEq

/-- What a choice adds to an alternative: the way to it, and behind the second one the two states
around the choice. -/
def Place.close {α : Type} (a : Plan α) : Place → Plan α
  | alone => a
  | second => a ++ .states ⟨2, waySize⟩
  | among => a ++ .states ⟨0, waySize⟩

/-- A repetition of a part. -/
def timesPlan {α : Type} (takesSome : Bool) (a : Plan α) : Nat → Option Nat → Plan α
  | 0, none => if takesSome then .fork ++ a else a ++ .fork ++ .fork ++ .state
  | lo + 1, none => .again (lo + 1) a ++ .fork
  | 0, some 1 => .fork ++ a ++ .state
  | lo, some hi =>
    let least := if lo = 0 then .state else .again lo a
    if hi ≤ lo then least else least ++ .state ++ .again (hi - lo) (.fork ++ a)

/-- What is noted of a group. -/
def groupPlan {α : Type} (a : Plan α) : Direction → Plan α
  | .forward => .state ++ a ++ .state
  | .backward => a

/-- The plan of a pattern at its place. A choice in a choice is none of its own, and a choice between
words shares states. -/
def plan (d : Direction) : Pattern → Place → Plan CharSet
  | empty, place | anchor _, place => place.close .state
  | text cs, place => place.close (.states ⟨(ByteForm.bytesOfText cs).length, 0⟩)
  | one s, place => place.close (.set s)
  | seq p q, place =>
    place.close (match d with
      | .forward => p.plan d .alone ++ q.plan d .alone
      | .backward => q.plan d .alone ++ p.plan d .alone)
  | alt p q, .alone =>
    match (p :: q.choices).mapM word? with
    | some words => .states (wordsLayout d words)
    | none => p.plan d .among ++ q.plan d .second
  | alt p q, place => p.plan d place ++ q.plan d .among
  | times _ lo hi p, place => place.close (timesPlan p.takesSome (p.plan d .alone) lo hi)
  | group _ p, place => place.close (groupPlan (p.plan d .alone) d)

/-- Whether a pattern is held at the end where the reading begins. -/
def heldAt (p : Pattern) : Direction → Bool
  | .forward => p.beginsAt .textStart
  | .backward => p.endsAt .textEnd

/-- The whole machine: unless it is held it may begin behind any bytes, reading forward the whole
match is a group, and a last state tells that it is complete. -/
def wholePlan (p : Pattern) (d : Direction) : Plan CharSet :=
  let start := if p.heldAt d then .state else .states ⟨3, 2 * waySize + rangeSize⟩
  start ++ groupPlan (p.plan d .alone) d ++ .state

/-- The machine laid out, if there is room for it. -/
def layout? (p : Pattern) (d : Direction) : Option Layout :=
  ((p.wholePlan d).map CharSet.forms).layOut d .zero

/-- Whether there is room for a pattern, in both directions. -/
def fits (p : Pattern) : Bool :=
  let fitsIn (d : Direction) : Bool := (p.wholePlan d).bound ≤ sizeLimit || (p.layout? d).isSome
  fitsIn .backward && fitsIn .forward

theorem layout?_isSome_of_bound {p : Pattern} {d : Direction}
    (h : (p.wholePlan d).bound ≤ sizeLimit) : (p.layout? d).isSome := by
  obtain ⟨l, hl, _⟩ := (p.wholePlan d).layOut_fitting d .zero
    (by simpa [Layout.size, Layout.zero] using h)
  rw [layout?, hl]
  rfl

/-- A pattern fits when it can be laid out in both directions. -/
theorem fits_iff (p : Pattern) : p.fits = true ↔ ∀ d, (p.layout? d).isSome := by
  have h (d : Direction) : ((p.wholePlan d).bound ≤ sizeLimit ∨ (p.layout? d).isSome = true) ↔
      (p.layout? d).isSome = true := or_iff_right_of_imp layout?_isSome_of_bound
  simp only [fits, Bool.and_eq_true, Bool.or_eq_true, decide_eq_true_eq, h]
  exact ⟨fun hp d => by cases d <;> simp [hp], fun hp => ⟨hp _, hp _⟩⟩

end Pattern

end CodeEditing
