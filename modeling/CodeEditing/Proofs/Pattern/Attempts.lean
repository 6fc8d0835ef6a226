import CodeEditing.Proofs.Pattern.Search

/-! The match that a search prefers.

Steps may be tried one way after the other: the first way and all that it leads to before the second
(`Tries`). Reading a text once with many threads finds the same. The threads at a place, the
preferred one first, stand for the ways that are still to be tried there; a thread at a step that
has been come to is left out, because what that step leads to has been tried in vain or is being
tried (`Begun`), and a way does not come back to a step that it began with. That is why rounds are
counted: trying the step again would take as many as the first time, and fewer are left.

`follow_tries`: following threads over a character keeps what trying them finds. `Matcher.run_tries`
and `Matcher.run_spent`: so does reading on. `Matcher.search_tries`: a search takes the match that
trying the ways finds first. -/
namespace CodeEditing

/-- The place behind the next character, if there is one. -/
def Spot.beyond (s : Spot) : Spot :=
  match s.rest with
  | [] => s
  | c :: cs => ⟨some c, s.index + 1, cs⟩

/-- Where a step leads to from a place of the text, the preferred way first. -/
def Step.ways (s : Spot) : Step → List (Nat × Spot)
  | take set next => if s.nextIn set then [(next, s.beyond)] else []
  | check a next => if a.holdsAt s then [(next, s)] else []
  | fork first second => [(first, s), (second, s)]
  | skip next | opening next | closing _ next => [(next, s)]
  | done => []

/-- Whether there may be a way on from a step: it does not complete a match. -/
def Step.goesOn : Step → Bool
  | done => false
  | _ => true

theorem Step.ne_done {x : Step} (hx : x.goesOn = true) : x ≠ .done := by
  rintro rfl
  exact Bool.false_ne_true hx

/-- Trying steps at places of the text, each with all that it leads to before those behind it, finds
where a match is complete, or nothing. The number is that of the steps that are left on the way. -/
inductive Tries (steps : Array Step) : Nat → List (Nat × Spot) → Option Spot → Prop
  | nothing : Tries steps 0 [] none
  | done {place : Nat} {s : Spot} {todo : List (Nat × Spot)} (h : steps[place]? = some .done) :
      Tries steps 0 ((place, s) :: todo) (some s)
  | lost {n place : Nat} {s : Spot} {todo : List (Nat × Spot)} {r : Option Spot}
      (h : steps[place]? = none) (more : Tries steps n todo r) :
      Tries steps (n + 1) ((place, s) :: todo) r
  | go {n place : Nat} {s : Spot} {todo : List (Nat × Spot)} {r : Option Spot} {x : Step}
      (h : steps[place]? = some x) (hx : x.goesOn = true)
      (more : Tries steps n (x.ways s ++ todo) r) :
      Tries steps (n + 1) ((place, s) :: todo) r

section
variable {steps : Array Step}

namespace Tries
variable {i j n place : Nat} {s e : Spot} {a b todo : List (Nat × Spot)} {r : Option Spot}

theorem of_nil (h : Tries steps n [] r) : r = none := by
  cases h
  rfl

theorem of_done (hstep : steps[place]? = some .done) (h : Tries steps n ((place, s) :: todo) r) :
    r = some s := by
  cases h with
  | done => rfl
  | lost h => exact nomatch hstep.symm.trans h
  | go h hx => exact absurd (Option.some.inj (h.symm.trans hstep)) (Step.ne_done hx)

theorem of_lost (hstep : steps[place]? = none) (h : Tries steps n ((place, s) :: todo) r) :
    ∃ m, n = m + 1 ∧ Tries steps m todo r := by
  cases h with
  | done h | go h => exact nomatch hstep.symm.trans h
  | lost _ more => exact ⟨_, rfl, more⟩

theorem of_go {x : Step} (hstep : steps[place]? = some x) (hx : x.goesOn = true)
    (h : Tries steps n ((place, s) :: todo) r) :
    ∃ m, n = m + 1 ∧ Tries steps m (x.ways s ++ todo) r := by
  cases h with
  | done h => exact absurd (Option.some.inj (hstep.symm.trans h)) (Step.ne_done hx)
  | lost h => exact nomatch hstep.symm.trans h
  | go h _ more =>
    obtain rfl := Option.some.inj (hstep.symm.trans h)
    exact ⟨_, rfl, more⟩

/-- There is one way to try steps. -/
theorem unique {m : Nat} {q : Option Spot} (h : Tries steps n todo r) (h' : Tries steps m todo q) :
    n = m ∧ r = q := by
  induction h generalizing m q with
  | nothing =>
    cases h'
    exact ⟨rfl, rfl⟩
  | done h =>
    cases h' with
    | done => exact ⟨rfl, rfl⟩
    | lost hl => exact nomatch h.symm.trans hl
    | go hg hx => exact absurd (Option.some.inj (hg.symm.trans h)) (Step.ne_done hx)
  | lost h _ ih =>
    obtain ⟨m, rfl, hm⟩ := of_lost h h'
    obtain ⟨rfl, rfl⟩ := ih hm
    exact ⟨rfl, rfl⟩
  | go h hx _ ih =>
    obtain ⟨m, rfl, hm⟩ := of_go h hx h'
    obtain ⟨rfl, rfl⟩ := ih hm
    exact ⟨rfl, rfl⟩

theorem append_some (h : Tries steps n a (some e)) : Tries steps n (a ++ b) (some e) := by
  generalize hr : some e = q at h
  induction h with
  | nothing => cases hr
  | done h => exact hr ▸ .done h
  | lost h _ ih => exact .lost h (ih hr)
  | go h hx _ ih => exact .go h hx (by simpa using ih hr)

theorem append_none (h : Tries steps i a none) (hb : Tries steps j b r) :
    Tries steps (i + j) (a ++ b) r := by
  generalize hr : none = q at h
  induction h with
  | nothing => simpa using hb
  | done h => cases hr
  | @lost n place s todo r h _ ih =>
    rw [Nat.add_right_comm]
    exact .lost h (ih hr)
  | @go n place s todo r x h hx _ ih =>
    rw [Nat.add_right_comm]
    exact .go h hx (by simpa using ih hr)

/-- The first of the steps find something, or they are tried in vain and the others after them. -/
theorem split (h : Tries steps n (a ++ b) r) : (∃ e, r = some e ∧ Tries steps n a (some e)) ∨
    ∃ i j, i + j = n ∧ Tries steps i a none ∧ Tries steps j b r := by
  generalize hl : a ++ b = todo at h
  induction h generalizing a with
  | nothing =>
    obtain ⟨rfl, rfl⟩ := List.append_eq_nil_iff.1 hl
    exact .inr ⟨0, 0, rfl, .nothing, .nothing⟩
  | @done place s todo h =>
    cases a with
    | nil =>
      obtain rfl : b = _ := hl
      exact .inr ⟨0, 0, rfl, .nothing, .done h⟩
    | cons p a =>
      obtain ⟨rfl, rfl⟩ := List.cons.inj hl
      exact .inl ⟨s, rfl, .done h⟩
  | @lost n place s todo r h more ih =>
    cases a with
    | nil =>
      obtain rfl : b = _ := hl
      exact .inr ⟨0, n + 1, Nat.zero_add _, .nothing, .lost h more⟩
    | cons p a =>
      obtain ⟨rfl, rfl⟩ := List.cons.inj hl
      rcases ih rfl with ⟨e, rfl, he⟩ | ⟨i, j, rfl, hi, hj⟩
      · exact .inl ⟨e, rfl, .lost h he⟩
      · exact .inr ⟨i + 1, j, by omega, .lost h hi, hj⟩
  | @go n place s todo r x h hx more ih =>
    cases a with
    | nil =>
      obtain rfl : b = _ := hl
      exact .inr ⟨0, n + 1, Nat.zero_add _, .nothing, .go h hx more⟩
    | cons p a =>
      obtain ⟨rfl, rfl⟩ := List.cons.inj hl
      rcases ih (List.append_assoc ..) with ⟨e, rfl, he⟩ | ⟨i, j, rfl, hi, hj⟩
      · exact .inl ⟨e, rfl, .go h hx he⟩
      · exact .inr ⟨i + 1, j, by omega, .go h hx hi, hj⟩

/-- Steps that are tried in vain may be left out. -/
theorem behind (h : Tries steps n (a ++ b) r) (ha : Tries steps i a none) :
    ∃ j, i + j = n ∧ Tries steps j b r := by
  rcases h.split with ⟨e, -, he⟩ | ⟨k, j, hk, hnone, hj⟩
  · exact nomatch (ha.unique he).2
  · obtain ⟨rfl, -⟩ := ha.unique hnone
    exact ⟨j, hk, hj⟩

end Tries

/-! ### Following threads -/

/-- The steps that threads have come to, at a place of the text. -/
def standing (ts : List Thread) (s : Spot) : List (Nat × Spot) := ts.map fun t => (t.place, s)

variable {spot : Spot} {fuel : Nat} {seen : Places} {onward todo : List Thread} {t : Thread}

/-- A thread whose step has not been come to completes a match, is at no step, or is followed to
where the step leads, which is either here or behind the next character. -/
theorem follow_ways (hseen : seen.has t.place = false) :
    (steps[t.place]? = some .done ∧
        follow steps spot (fuel + 1) seen onward (t :: todo) = ⟨onward.reverse, some t⟩) ∨
      (steps[t.place]? = none ∧ follow steps spot (fuel + 1) seen onward (t :: todo) =
        follow steps spot fuel (seen.add t.place) onward todo) ∨
      ∃ x news ahead, steps[t.place]? = some x ∧ x.goesOn = true ∧ news.length ≤ 2 ∧
        (ahead = [] ∨ spot.rest ≠ []) ∧ ahead.length ≤ 1 ∧
        x.ways spot = standing ahead spot.beyond ++ standing news spot ∧
        follow steps spot (fuel + 1) seen onward (t :: todo) =
          follow steps spot fuel (seen.add t.place) (ahead ++ onward) (news ++ todo) := by
  rw [follow, if_neg (Bool.eq_false_iff.1 hseen)]
  dsimp only
  cases hstep : steps[t.place]? with
  | none => exact .inr (.inl ⟨rfl, rfl⟩)
  | some x =>
    cases x with
    | take set next =>
      refine .inr (.inr ⟨_, [], if spot.nextIn set then [t.goTo next] else [], rfl, rfl,
        Nat.zero_le 2, ?_, ?_, ?_, ?_⟩)
      · by_cases hin : spot.nextIn set = true
        · refine .inr fun hrest => ?_
          rw [Spot.nextIn, hrest] at hin
          exact Bool.false_ne_true hin
        · exact .inl (if_neg hin)
      all_goals
        by_cases hin : spot.nextIn set = true <;>
          simp [hin, Step.ways, standing, Thread.goTo]
    | check a next =>
      refine .inr (.inr ⟨_, if a.holdsAt spot then [t.goTo next] else [], [], rfl, rfl, ?_,
        .inl rfl, Nat.zero_le 1, ?_, ?_⟩)
      all_goals by_cases ha : a.holdsAt spot = true <;> simp [ha, Step.ways, standing, Thread.goTo]
    | fork first second =>
      exact .inr (.inr ⟨_, [t.goTo first, t.goTo second], [], rfl, rfl, Nat.le_refl 2, .inl rfl,
        Nat.zero_le 1, rfl, rfl⟩)
    | skip next =>
      exact .inr (.inr ⟨_, [t.goTo next], [], rfl, rfl, Nat.le_succ 1, .inl rfl, Nat.zero_le 1,
        rfl, rfl⟩)
    | opening next =>
      exact .inr (.inr ⟨_, [t.openGroup spot.index next], [], rfl, rfl, Nat.le_succ 1, .inl rfl,
        Nat.zero_le 1, rfl, rfl⟩)
    | closing number next =>
      refine .inr (.inr ⟨_, [t.closeGroup number spot.index next], [], rfl, rfl, Nat.le_succ 1,
        .inl rfl, Nat.zero_le 1, ?_, rfl⟩)
      simp [Step.ways, standing, (closeGroup_start t number spot.index next).2]
    | done => exact .inl ⟨rfl, rfl⟩

/-- Threads that are behind the next character stay there, in front of those that come later. -/
theorem follow_onward : ∃ more,
    (follow steps spot fuel seen onward todo).onward = onward.reverse ++ more := by
  induction fuel generalizing seen onward todo with
  | zero => exact ⟨[], by simp [follow]⟩
  | succ fuel ih =>
    cases todo with
    | nil => exact ⟨[], by simp [follow]⟩
    | cons t todo =>
      cases hseen : seen.has t.place with
      | true =>
        rw [follow, if_pos hseen]
        exact ih
      | false =>
        rcases follow_ways hseen with ⟨-, he⟩ | ⟨-, he⟩ | ⟨x, news, ahead, -, -, -, -, -, -, he⟩
        · exact ⟨[], by rw [he, List.append_nil]⟩
        · rw [he]
          exact ih
        · obtain ⟨more, hmore⟩ := @ih (seen.add t.place) (ahead ++ onward)
            (news ++ todo)
          exact ⟨ahead.reverse ++ more, by rw [he, hmore, List.reverse_append, List.append_assoc]⟩

/-- No thread goes beyond the end of the text. -/
theorem follow_at_end (hrest : spot.rest = []) :
    (follow steps spot fuel seen onward todo).onward = onward.reverse := by
  induction fuel generalizing seen onward todo with
  | zero => rfl
  | succ fuel ih =>
    cases todo with
    | nil => rfl
    | cons t todo =>
      cases hseen : seen.has t.place with
      | true =>
        rw [follow, if_pos hseen]
        exact ih
      | false =>
        rcases follow_ways hseen with ⟨-, he⟩ | ⟨-, he⟩ | ⟨x, news, ahead, -, -, -, hend, -, -, he⟩
        · rw [he]
        · rw [he]
          exact ih
        · obtain rfl := hend.resolve_right fun h => h hrest
          rw [he]
          exact ih

/-- Trying a step has begun: what it finds is what the first of the threads that wait find, and
fewer steps are left on their way than on its own. -/
def Begun (steps : Array Step) (spot : Spot) (todo : List Thread) (place : Nat) : Prop :=
  ∃ before after i j r, todo = before ++ after ∧ Tries steps j [(place, spot)] r ∧
    Tries steps i (standing before spot) r ∧ i < j

namespace Begun

/-- A step that is come to again is tried in vain. -/
theorem of_head (h : Begun steps spot (t :: todo) t.place) :
    ∃ j, Tries steps j [(t.place, spot)] none := by
  obtain ⟨before, after, i, j, r, hsplit, hj, hi, hlt⟩ := h
  cases before with
  | nil =>
    obtain rfl := hi.of_nil
    exact ⟨j, hj⟩
  | cons q before =>
    obtain ⟨rfl, rfl⟩ := List.cons.inj hsplit
    have hi : Tries steps i ([(t.place, spot)] ++ standing before spot) r := hi
    rcases hi.split with ⟨e, rfl, he⟩ | ⟨k, l, hk, hnone, -⟩
    · have := (hj.unique he).1
      omega
    · have := (hj.unique hnone).1
      omega

/-- A thread that leads nowhere is left out. -/
theorem drop {place k : Nat} (h : Begun steps spot (t :: todo) place)
    (hnone : Tries steps k [(t.place, spot)] none) : Begun steps spot todo place := by
  obtain ⟨before, after, i, j, r, hsplit, hj, hi, hlt⟩ := h
  cases before with
  | nil => exact ⟨[], todo, i, j, r, rfl, hj, hi, hlt⟩
  | cons q before =>
    obtain ⟨rfl, rfl⟩ := List.cons.inj hsplit
    have hi : Tries steps i ([(t.place, spot)] ++ standing before spot) r := hi
    obtain ⟨l, hl, hbefore⟩ := hi.behind hnone
    exact ⟨before, after, l, j, r, rfl, hj, hbefore, by omega⟩

/-- A thread goes on. -/
theorem go {place k : Nat} {x : Step} {news ahead : List Thread}
    (h : Begun steps spot (t :: todo) place) (hstep : steps[t.place]? = some x)
    (hx : x.goesOn = true) (hways : x.ways spot = standing ahead spot.beyond ++ standing news spot)
    (hahead : Tries steps k (standing ahead spot.beyond) none) :
    Begun steps spot (news ++ todo) place := by
  obtain ⟨before, after, i, j, r, hsplit, hj, hi, hlt⟩ := h
  cases before with
  | nil => exact ⟨[], news ++ todo, i, j, r, rfl, hj, hi, hlt⟩
  | cons q before =>
    obtain ⟨rfl, rfl⟩ := List.cons.inj hsplit
    obtain ⟨m, rfl, hm⟩ := hi.of_go hstep hx
    rw [hways, List.append_assoc] at hm
    obtain ⟨l, hl, hnews⟩ := hm.behind hahead
    refine ⟨news ++ before, after, l, j, r, (List.append_assoc ..).symm, hj, ?_, by omega⟩
    rwa [standing, List.map_append]

/-- The thread's own step. -/
theorem own {n k : Nat} {x : Step} {news ahead : List Thread} {r : Option Spot}
    (h : Tries steps n [(t.place, spot)] r) (hstep : steps[t.place]? = some x)
    (hx : x.goesOn = true) (hways : x.ways spot = standing ahead spot.beyond ++ standing news spot)
    (hahead : Tries steps k (standing ahead spot.beyond) none) :
    Begun steps spot (news ++ todo) t.place := by
  obtain ⟨m, rfl, hm⟩ := h.of_go hstep hx
  rw [List.append_nil, hways] at hm
  obtain ⟨l, hl, hnews⟩ := hm.behind hahead
  exact ⟨news, todo, l, m + 1, r, rfl, h, hnews, by omega⟩

end Begun

/-- What is to be tried behind the front: the threads beyond the next character, and the one that
has completed a match. -/
def Front.tried (f : Front) (spot : Spot) : List (Nat × Spot) :=
  standing f.onward spot.beyond ++ standing f.finished.toList spot

/-- Following threads keeps what trying them finds, as long as those that are behind the next
character find nothing. -/
theorem follow_tries {i n : Nat} {r : Option Spot} (hfuel : todo.length + 2 * seen.left < fuel)
    (hseen : ∀ place, seen.has place = true → steps[place]? = none ∨ Begun steps spot todo place)
    (ho : Tries steps i (standing onward.reverse spot.beyond) none)
    (ht : Tries steps n (standing todo spot) r) :
    ∃ m, Tries steps m ((follow steps spot fuel seen onward todo).tried spot) r := by
  induction fuel generalizing seen onward todo i n with
  | zero => omega
  | succ fuel ih =>
    cases todo with
    | nil =>
      obtain rfl := ht.of_nil
      exact ⟨i, by simpa [follow, Front.tried, standing] using ho⟩
    | cons t todo =>
      rw [List.length_cons] at hfuel
      have hsplit : Tries steps n ([(t.place, spot)] ++ standing todo spot) r := ht
      cases hs : seen.has t.place with
      | true =>
        obtain ⟨j, hnone⟩ : ∃ j, Tries steps j [(t.place, spot)] none := by
          rcases hseen t.place hs with hlost | hbegun
          · exact ⟨1, .lost hlost .nothing⟩
          · exact hbegun.of_head
        obtain ⟨m, -, hm⟩ := hsplit.behind hnone
        rw [follow, if_pos hs]
        exact ih (by omega) (fun place hp => (hseen place hp).imp_right (·.drop hnone)) ho hm
      | false =>
        have hleft := Places.left_add hs
        have hadded : ∀ {place}, (seen.add t.place).has place = true →
            t.place = place ∨ seen.has place = true := by
          intro place hp
          rw [Places.has_add, Bool.or_eq_true, beq_iff_eq] at hp
          exact hp.symm
        rcases follow_ways hs with ⟨hdone, he⟩ | ⟨hlost, he⟩ |
          ⟨x, news, ahead, hstep, hx, hnews, -, hahead, hways, he⟩
        · obtain rfl := ht.of_done hdone
          rw [he]
          exact ⟨i + 0, ho.append_none (.done hdone)⟩
        · have hnone : Tries steps 1 [(t.place, spot)] none := .lost hlost .nothing
          obtain ⟨m, -, hm⟩ := hsplit.behind hnone
          rw [he]
          refine ih (by omega) (fun place hp => ?_) ho hm
          rcases hadded hp with rfl | hp
          · exact .inl hlost
          · exact (hseen place hp).imp_right (·.drop hnone)
        · rw [he]
          obtain ⟨m, rfl, hm⟩ := Tries.of_go hstep hx ht
          rw [hways, List.append_assoc] at hm
          have horder : standing (ahead ++ onward).reverse spot.beyond =
              standing onward.reverse spot.beyond ++ standing ahead spot.beyond := by
            have hrev : ahead.reverse = ahead := by
              cases ahead with
              | nil => rfl
              | cons q more =>
                obtain rfl : more = [] := List.eq_nil_of_length_eq_zero (by simpa using hahead)
                rfl
            rw [List.reverse_append, hrev, standing, List.map_append]
            rfl
          rcases hm.split with ⟨e, rfl, hfound⟩ | ⟨k, l, -, hvain, hl⟩
          · -- what is behind the next character finds something, and nothing that follows matters
            obtain ⟨more, hmore⟩ := @follow_onward steps spot fuel (seen.add t.place)
              (ahead ++ onward) (news ++ todo)
            refine ⟨i + m, ?_⟩
            rw [Front.tried, hmore, standing, List.map_append, ← standing, horder,
              List.append_assoc]
            exact (ho.append_none hfound).append_some
          · have hown : ∃ j q, Tries steps j [(t.place, spot)] q := by
              rcases hsplit.split with ⟨e, -, hj⟩ | ⟨j, -, -, hj, -⟩
              · exact ⟨_, _, hj⟩
              · exact ⟨_, _, hj⟩
            obtain ⟨j, q, hj⟩ := hown
            have hnext : Tries steps l (standing (news ++ todo) spot) r := by
              rwa [standing, List.map_append]
            refine ih (by rw [List.length_append]; omega) (fun place hp => ?_)
              (horder ▸ ho.append_none hvain) hnext
            rcases hadded hp with rfl | hp
            · exact .inr (Begun.own hj hstep hx hways hvain)
            · exact (hseen place hp).imp_right (·.go hstep hx hways hvain)

end

/-! ### Reading a text -/

namespace Matcher
variable {p : Matcher} {n index : Nat} {previous : Option Char} {come : List Thread}
  {best : Option Match} {cs : List Char} {e : Spot}

theorem front_tries (p : Matcher) {spot : Spot} {todo : List Thread} {r : Option Spot}
    (h : Tries p.steps n (standing todo spot) r) :
    ∃ m, Tries p.steps m ((p.front spot todo).tried spot) r := by
  refine follow_tries ?_ (fun place hp => .inl ?_) .nothing h
  · rw [Places.left_none]
    omega
  · refine Array.getElem?_eq_none_iff.2 (Nat.le_of_not_lt fun hlt => ?_)
    simp [Places.has, Places.none, hlt] at hp

/-- What completes a match is behind the last step. -/
theorem follow_finished {steps : Array Step} {spot : Spot} {fuel : Nat} {seen : Places}
    {onward todo : List Thread} : ∀ t ∈ (follow steps spot fuel seen onward todo).finished,
      steps[t.place]? = some .done := by
  induction fuel generalizing seen onward todo with
  | zero => exact nofun
  | succ fuel ih =>
    cases todo with
    | nil => exact nofun
    | cons t todo =>
      cases hseen : seen.has t.place with
      | true =>
        rw [follow, if_pos hseen]
        exact ih
      | false =>
        rcases follow_ways hseen with ⟨hdone, he⟩ | ⟨-, he⟩ | ⟨_, _, _, -, -, -, -, -, -, he⟩
        · rw [he]
          exact fun q hq => Option.some.inj hq ▸ hdone
        · rw [he]
          exact ih
        · rw [he]
          exact ih

/-- Where trying the threads finds nothing, none completes a match here or later. -/
theorem front_vain (p : Matcher) {spot : Spot} {todo : List Thread}
    (h : Tries p.steps n (standing todo spot) none) : (p.front spot todo).finished = none ∧
      ∃ m, Tries p.steps m (standing (p.front spot todo).onward spot.beyond) none := by
  obtain ⟨m, hm⟩ := p.front_tries h
  rcases hm.split with ⟨_, he, -⟩ | ⟨i, j, -, hi, hj⟩
  · exact nomatch he
  · refine ⟨Option.eq_none_iff_forall_not_mem.2 fun t ht => ?_, i, hi⟩
    rw [Option.mem_def.1 ht] at hj
    exact nomatch hj.of_done (follow_finished t ht)

/-- Where trying the threads finds something, one behind the next character does, or none of these
does and a match is complete here. -/
theorem front_found (p : Matcher) {spot : Spot} {todo : List Thread}
    (h : Tries p.steps n (standing todo spot) (some e)) :
    (∃ m, Tries p.steps m (standing (p.front spot todo).onward spot.beyond) (some e)) ∨
      (e = spot ∧ (p.front spot todo).finished.isSome = true ∧
        ∃ m, Tries p.steps m (standing (p.front spot todo).onward spot.beyond) none) := by
  obtain ⟨m, hm⟩ := p.front_tries h
  rcases hm.split with ⟨_, he, hfound⟩ | ⟨i, j, -, hi, hj⟩
  · exact .inl ⟨m, he ▸ hfound⟩
  · cases hf : (p.front spot todo).finished with
    | none =>
      rw [hf] at hj
      exact nomatch hj.of_nil
    | some t =>
      rw [hf] at hj
      exact .inr ⟨Option.some.inj (hj.of_done (follow_finished t hf)), rfl, i, hi⟩

/-- When there is a match already, or nothing begins later, no thread is added. -/
theorem threadsAt_late (h : best.isSome = true ∨ p.held = true) :
    p.threadsAt (index + 1) best come = come := by
  rw [threadsAt, if_neg]
  rcases h with h | h
  · simp [Option.ne_none_iff_isSome.2 h]
  · simp [h]

/-- Threads that find nothing leave the match that there is. -/
theorem run_spent (hlate : best.isSome = true ∨ p.held = true)
    (h : Tries p.steps n (standing (p.threadsAt index best come) ⟨previous, index, cs⟩) none) :
    p.run previous index come best cs = best := by
  have hbest : ∀ {f : Front}, f.finished = none → f.bestAt index best = best := by
    intro f hf
    rw [Front.bestAt, hf, Option.map_none, Option.none_or]
  obtain ⟨hfinished, m, hm⟩ := p.front_vain h
  induction cs generalizing previous index come n m with
  | nil => exact hbest hfinished
  | cons c cs ih =>
    rw [run]
    split
    · rfl
    · dsimp only
      rw [hbest hfinished]
      have hnext : Tries p.steps m (standing (p.threadsAt (index + 1) best
          (p.front ⟨previous, index, c :: cs⟩ (p.threadsAt index best come)).onward)
            ⟨some c, index + 1, cs⟩) none := by
        rwa [threadsAt_late hlate]
      obtain ⟨hfinished', m', hm'⟩ := p.front_vain hnext
      refine ih hnext ?_ hfinished' m' hm'
      intro f hf
      rw [Front.bestAt, hf, Option.map_none, Option.none_or]

/-- Reading on finds what trying the threads finds. -/
theorem run_tries
    (h : Tries p.steps n (standing (p.threadsAt index best come) ⟨previous, index, cs⟩) (some e)) :
    ∃ m, p.run previous index come best cs = some m ∧ m.stop = e.index := by
  induction cs generalizing previous index come best n with
  | nil =>
    rcases p.front_found h with ⟨m, hm⟩ | ⟨rfl, hfinished, -⟩
    · rw [front, follow_at_end rfl] at hm
      exact nomatch hm.of_nil
    · obtain ⟨t, ht⟩ := Option.isSome_iff_exists.1 hfinished
      exact ⟨t.toMatch index, by rw [run, Front.bestAt, ht]; rfl, rfl⟩
  | cons c cs ih =>
    have hsome : (p.threadsAt index best come).isEmpty = false := by
      cases hts : p.threadsAt index best come with
      | nil =>
        rw [hts] at h
        exact nomatch h.of_nil
      | cons => rfl
    rw [run]
    dsimp only
    rw [hsome, Bool.false_and, if_neg Bool.false_ne_true]
    rcases p.front_found h with ⟨m, hm⟩ | ⟨rfl, hfinished, m, hm⟩
    · generalize (p.front ⟨previous, index, c :: cs⟩ (p.threadsAt index best come)) = f at hm ⊢
      refine ih (n := m) ?_
      rw [threadsAt]
      split
      · rw [standing, List.map_append]
        exact hm.append_some
      · exact hm
    · obtain ⟨t, ht⟩ := Option.isSome_iff_exists.1 hfinished
      have hbest : (p.front ⟨previous, index, c :: cs⟩ (p.threadsAt index best come)).bestAt index
          best = some (t.toMatch index) := by
        rw [Front.bestAt, ht]
        rfl
      rw [hbest]
      refine ⟨t.toMatch index, run_spent (.inl rfl) (n := m) ?_, rfl⟩
      rwa [threadsAt_late (.inl rfl)]

/-- **A search prefers what trying the ways in order finds first.** -/
theorem search_tries {text : List Char} (h : Tries p.steps n [(0, .start text)] (some e)) :
    ∃ m, p.search text = some m ∧ m.stop = e.index :=
  run_tries h

/-- A matcher that is held at the start finds nothing when trying the ways finds nothing. -/
theorem search_spent {text : List Char} (hheld : p.held = true)
    (h : Tries p.steps n [(0, .start text)] none) : p.search text = none :=
  run_spent (.inr hheld) h

end Matcher

end CodeEditing
