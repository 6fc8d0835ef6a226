import CodeEditing.Pattern.Matcher

/-! Where a pattern matches.

A text is read once, character by character. At every place of the text there is a list of threads,
the preferred one first: each has found some way through the steps that takes all up to that place.
Two threads at one step differ in nothing that follows, so only the preferred one is kept
(`follow`), and there are never more threads than steps. A match begins as early as it can; a thread
that completes a match ends all that are behind it, and those before it may still find a match they
prefer (`Matcher.run`).

`run_within`: a match lies in what is read, and its groups lie in the match.
`search_within`: the same of a whole text. -/
namespace CodeEditing

/-! ### Matches -/

/-- The stretch of text a group has taken, by the indices of its ends. -/
structure Capture where
  number : Nat
  start : Nat
  stop : Nat
  deriving Repr, DecidableEq

/-- A match: the indices of its ends and the groups closed in it, the latest first. -/
structure Match where
  start : Nat
  stop : Nat
  captures : List Capture
  deriving Repr, DecidableEq

/-- What the group took last. -/
def Match.group? (m : Match) (n : Nat) : Option Capture := m.captures.find? (·.number == n)

/-! ### Threads -/

/-- A way through the steps: the step it has come to, where it began, where the groups that are open
were opened, and the groups closed on the way, both latest first. -/
structure Thread where
  place : Nat
  start : Nat
  opened : List Nat
  captures : List Capture
  deriving Repr, DecidableEq

namespace Thread

/-- A thread in front of the first step. -/
def begin (index : Nat) : Thread := ⟨0, index, [], []⟩

def goTo (t : Thread) (place : Nat) : Thread := {t with place}

/-- Opens a group. -/
def openGroup (t : Thread) (index place : Nat) : Thread :=
  {t with place, opened := index :: t.opened}

/-- Closes the group opened last. -/
def closeGroup (t : Thread) (number index place : Nat) : Thread :=
  match t.opened with
  | [] => {t with place}
  | start :: opened => {t with place, opened, captures := ⟨number, start, index⟩ :: t.captures}

/-- The match a thread has completed. -/
def toMatch (t : Thread) (index : Nat) : Match := ⟨t.start, index, t.captures⟩

end Thread

/-- Which steps have been come to. -/
abbrev Places := Array Bool

namespace Places

/-- None of `size` steps. -/
def none (size : Nat) : Places := Array.replicate size false

/-- Whether a step has been come to; one that there is not needs no visit. -/
def has (s : Places) (place : Nat) : Bool := s.getD place true

def add (s : Places) (place : Nat) : Places := s.setIfInBounds place true

end Places

/-- The threads that take the next character, behind it and preferred first, and the one that has
completed a match and is preferred to all threads that are not listed. -/
structure Front where
  onward : List Thread
  finished : Option Thread
  deriving Repr, DecidableEq

/-- The match to be taken so far: one completed at the front before an earlier one. -/
def Front.bestAt (f : Front) (index : Nat) (best : Option Match) : Option Match :=
  (f.finished.map (·.toMatch index)).or best

/-- Follows threads, preferred first, over the next character. `onward` holds those that are behind it,
latest first. Every place is left at most once and to at most two others, which bounds `fuel`. -/
def follow (steps : Array Step) (spot : Spot) :
    Nat → Places → List Thread → List Thread → Front
  | 0, _, onward, _ => ⟨onward.reverse, none⟩
  | _ + 1, _, onward, [] => ⟨onward.reverse, none⟩
  | fuel + 1, seen, onward, t :: todo =>
    if seen.has t.place then follow steps spot fuel seen onward todo
    else
      let seen := seen.add t.place
      match steps[t.place]? with
      | none => follow steps spot fuel seen onward todo
      | some (.take s next) =>
        if spot.nextIn s then follow steps spot fuel seen (t.goTo next :: onward) todo
        else follow steps spot fuel seen onward todo
      | some (.check a next) =>
        if a.holdsAt spot then follow steps spot fuel seen onward (t.goTo next :: todo)
        else follow steps spot fuel seen onward todo
      | some (.fork first second) =>
        follow steps spot fuel seen onward (t.goTo first :: t.goTo second :: todo)
      | some (.skip next) => follow steps spot fuel seen onward (t.goTo next :: todo)
      | some (.opening next) =>
        follow steps spot fuel seen onward (t.openGroup spot.index next :: todo)
      | some (.closing number next) =>
        follow steps spot fuel seen onward (t.closeGroup number spot.index next :: todo)
      | some .done => ⟨onward.reverse, some t⟩

namespace Matcher

/-- Where threads come to at a place of the text. -/
def front (p : Matcher) (spot : Spot) (todo : List Thread) : Front :=
  follow p.steps spot (2 * p.steps.size + todo.length + 1) (Places.none p.steps.size) [] todo

/-- The threads at a place of the text: those that have come there, and as long as there is no match
a new one behind them. A matcher held at the start has new ones there alone. -/
def threadsAt (p : Matcher) (index : Nat) (best : Option Match) (come : List Thread) :
    List Thread :=
  if best.isNone && (index == 0 || !p.held) then come ++ [.begin index] else come

/-- Reads on in a text: `come` are the threads that have come so far, `best` is the match to be taken
unless one of them completes another. -/
def run (p : Matcher) (previous : Option Char) (index : Nat) (come : List Thread)
    (best : Option Match) : List Char → Option Match
  | [] => (p.front ⟨previous, index, []⟩ (p.threadsAt index best come)).bestAt index best
  | c :: cs =>
    let threads := p.threadsAt index best come
    if threads.isEmpty && (best.isSome || p.held) then best
    else
      let front := p.front ⟨previous, index, c :: cs⟩ threads
      p.run (some c) (index + 1) front.onward (front.bestAt index best) cs

/-- The first match in a text. -/
def search (p : Matcher) (text : List Char) : Option Match := p.run none 0 [] none text

/-- Whether the pattern matches somewhere in a text. -/
def occursIn (p : Matcher) (text : List Char) : Bool := (p.search text).isSome

end Matcher

/-! ### Matches lie in the text -/

/-- The match lies between two indices, and its groups lie inside of it. -/
structure Match.Within (m : Match) (first last : Nat) : Prop where
  first_le : first ≤ m.start
  start_le_stop : m.start ≤ m.stop
  stop_le : m.stop ≤ last
  groups : ∀ g ∈ m.captures, m.start ≤ g.start ∧ g.start ≤ g.stop ∧ g.stop ≤ m.stop

theorem Match.Within.mono {m : Match} {first last last' : Nat} (h : m.Within first last)
    (hl : last ≤ last') : m.Within first last' :=
  ⟨h.first_le, h.start_le_stop, Nat.le_trans h.stop_le hl, h.groups⟩

/-- The thread began between two indices, and so did all its groups, which are closed by then. -/
structure Thread.Within (t : Thread) (first last : Nat) : Prop where
  first_le : first ≤ t.start
  start_le : t.start ≤ last
  opened : ∀ o ∈ t.opened, t.start ≤ o ∧ o ≤ last
  groups : ∀ g ∈ t.captures, t.start ≤ g.start ∧ g.start ≤ g.stop ∧ g.stop ≤ last

namespace Thread.Within

theorem begin {first index : Nat} (h : first ≤ index) :
    (Thread.begin index).Within first index :=
  ⟨h, Nat.le_refl _, by simp [Thread.begin], by simp [Thread.begin]⟩

theorem mono {t : Thread} {first last last' : Nat} (h : t.Within first last) (hl : last ≤ last') :
    t.Within first last' :=
  ⟨h.first_le, Nat.le_trans h.start_le hl,
    fun o ho => ⟨(h.opened o ho).1, Nat.le_trans (h.opened o ho).2 hl⟩,
    fun g hg => ⟨(h.groups g hg).1, (h.groups g hg).2.1, Nat.le_trans (h.groups g hg).2.2 hl⟩⟩

theorem goTo {t : Thread} {first last : Nat} (h : t.Within first last) (place : Nat) :
    (t.goTo place).Within first last := ⟨h.first_le, h.start_le, h.opened, h.groups⟩

theorem openGroup {t : Thread} {first last : Nat} (h : t.Within first last) (place : Nat) :
    (t.openGroup last place).Within first last := by
  refine ⟨h.first_le, h.start_le, fun o ho => ?_, h.groups⟩
  rcases List.mem_cons.1 ho with rfl | ho
  · exact ⟨h.start_le, Nat.le_refl _⟩
  · exact h.opened o ho

theorem closeGroup {t : Thread} {first last : Nat} (h : t.Within first last)
    (number place : Nat) : (t.closeGroup number last place).Within first last := by
  rw [Thread.closeGroup]
  split
  · exact ⟨h.first_le, h.start_le, h.opened, h.groups⟩
  · next o os ho =>
    refine ⟨h.first_le, h.start_le, fun x hx => h.opened x (by simp [ho, hx]), fun g hg => ?_⟩
    rcases List.mem_cons.1 hg with rfl | hg
    · exact ⟨(h.opened o (by simp [ho])).1, (h.opened o (by simp [ho])).2, Nat.le_refl _⟩
    · exact h.groups g hg

theorem toMatch {t : Thread} {first last : Nat} (h : t.Within first last) :
    (t.toMatch last).Within first last := ⟨h.first_le, h.start_le, Nat.le_refl _, h.groups⟩

end Thread.Within

/-- Following threads keeps what lies between two indices. -/
theorem follow_within {steps : Array Step} {spot : Spot} {fuel first : Nat} {seen : Places}
    {onward todo : List Thread} (hw : ∀ t ∈ onward, t.Within first spot.index)
    (ht : ∀ t ∈ todo, t.Within first spot.index) :
    (∀ t ∈ (follow steps spot fuel seen onward todo).onward, t.Within first spot.index) ∧
      ∀ t ∈ (follow steps spot fuel seen onward todo).finished, t.Within first spot.index := by
  induction fuel generalizing seen onward todo with
  | zero => simpa [follow] using hw
  | succ fuel ih =>
    cases todo with
    | nil => simpa [follow] using hw
    | cons t todo =>
      have h := ht t (by simp)
      have hr : ∀ t ∈ todo, t.Within first spot.index := fun q hq => ht q (by simp [hq])
      have further : ∀ q : Thread, q.Within first spot.index →
          ∀ r ∈ q :: todo, r.Within first spot.index := by
        intro q hq r hrm
        rcases List.mem_cons.1 hrm with rfl | hrm
        · exact hq
        · exact hr r hrm
      rw [follow]
      split
      · exact ih hw hr
      · split
        · exact ih hw hr
        · split
          · refine ih (fun q hq => ?_) hr
            rcases List.mem_cons.1 hq with rfl | hq
            · exact h.goTo _
            · exact hw q hq
          · exact ih hw hr
        · split
          · exact ih hw (further _ (h.goTo _))
          · exact ih hw hr
        · refine ih hw fun q hq => ?_
          rcases List.mem_cons.1 hq with rfl | hq
          · exact h.goTo _
          · exact further _ (h.goTo _) q hq
        · exact ih hw (further _ (h.goTo _))
        · exact ih hw (further _ (h.openGroup _))
        · exact ih hw (further _ (h.closeGroup _ _))
        · simpa using ⟨hw, h⟩

namespace Matcher

theorem threadsAt_within {p : Matcher} {first index : Nat} {best : Option Match}
    {come : List Thread} (hi : first ≤ index) (h : ∀ t ∈ come, t.Within first index) :
    ∀ t ∈ p.threadsAt index best come, t.Within first index := by
  intro t ht
  rw [threadsAt] at ht
  split at ht
  · rcases List.mem_append.1 ht with ht | ht
    · exact h t ht
    · exact List.mem_singleton.1 ht ▸ Thread.Within.begin hi
  · exact h t ht

theorem front_within {p : Matcher} {spot : Spot} {first : Nat} {todo : List Thread}
    (h : ∀ t ∈ todo, t.Within first spot.index) :
    (∀ t ∈ (p.front spot todo).onward, t.Within first spot.index) ∧
      ∀ t ∈ (p.front spot todo).finished, t.Within first spot.index :=
  follow_within (by simp) h

theorem bestAt_within {f : Front} {first index : Nat} {best : Option Match}
    (hf : ∀ t ∈ f.finished, t.Within first index) (hb : ∀ b ∈ best, b.Within first index) :
    ∀ b ∈ f.bestAt index best, b.Within first index := by
  intro b h
  rcases Option.or_eq_some_iff.1 h with h | ⟨_, h⟩
  · obtain ⟨t, ht, rfl⟩ := Option.map_eq_some_iff.1 h
    exact (hf t ht).toMatch
  · exact hb b h

/-- A match lies in what is read, and its groups lie in the match. -/
theorem run_within {p : Matcher} {previous : Option Char} {first index : Nat}
    {come : List Thread} {best : Option Match} {cs : List Char} {m : Match} (hi : first ≤ index)
    (hc : ∀ t ∈ come, t.Within first index) (hb : ∀ b ∈ best, b.Within first index)
    (h : p.run previous index come best cs = some m) : m.Within first (index + cs.length) := by
  induction cs generalizing previous index come best with
  | nil =>
    rw [run] at h
    exact bestAt_within (front_within (threadsAt_within hi hc)).2 hb m h
  | cons c cs ih =>
    rw [run] at h
    split at h
    · exact (hb m h).mono (Nat.le_add_right _ _)
    · have hf := @front_within p ⟨previous, index, c :: cs⟩ first _
        (@threadsAt_within p first index best come hi hc)
      have hm := ih (Nat.le_succ_of_le hi) (fun t ht => ?_)
        (fun b hbm => (bestAt_within hf.2 hb b hbm).mono (Nat.le_succ _)) h
      · exact hm.mono (by simp only [List.length_cons]; omega)
      · exact (hf.1 t ht).mono (Nat.le_succ _)

/-- A match lies in the text, and its groups lie in the match. -/
theorem search_within {p : Matcher} {text : List Char} {m : Match} (h : p.search text = some m) :
    m.Within 0 text.length := by
  have := run_within (Nat.le_refl 0) (by simp) (by simp) h
  simpa using this

end Matcher

end CodeEditing
