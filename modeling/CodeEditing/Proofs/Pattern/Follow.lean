import CodeEditing.Pattern.Matching
import CodeEditing.Proofs.Pattern.Ways

/-! What following threads does at one place of a text.

A thread whose step has not been come to completes a match or is followed to all that one can go on to
from that step (`follow_unseen`). Hence threads that have come from the first step on a way still have
when they have been followed (`follow_came`); and the steps come to are closed under going on (`Closed`)
when nothing waits any more, so that no way to a complete match is lost (`follow_complete`). -/
namespace CodeEditing

/-- A place in a text. -/
def Spot.In (s : Spot) (text : List Char) : Prop := ∃ cs, (Spot.start text).Reads cs s

theorem Spot.In.reads {s t : Spot} {text cs : List Char} (h : s.In text) (hr : s.Reads cs t) :
    t.In text := by
  obtain ⟨a, ha⟩ := h
  exact ⟨a ++ cs, ha.append hr⟩

/-- The place behind the next character. -/
theorem Spot.Reads.single {s u : Spot} {c d : Char} {cs : List Char} (hs : s.rest = c :: cs)
    (h : s.Reads [d] u) : d = c ∧ u = ⟨some c, s.index + 1, cs⟩ := by
  obtain ⟨rest, hr, rfl⟩ := h
  cases hs.symm.trans hr
  exact ⟨rfl, rfl⟩

/-- The characters up to a place of a text are those in front of it. -/
theorem Spot.Reads.split {t : Spot} {text cs : List Char} (h : (Spot.start text).Reads cs t) :
    text.take t.index = cs ∧ text.drop t.index = t.rest := by
  have htext : text = cs ++ t.rest := h.rest_eq
  have hindex : t.index = cs.length := by
    have : t.index = 0 + cs.length := h.index_eq
    omega
  rw [hindex, htext]
  exact ⟨List.take_left, List.drop_left⟩

/-! ### Threads come from the first step -/

section
variable {steps : Array Step} {text : List Char} {spot : Spot}

/-- The trail of a thread that is at a place of the text. -/
def Thread.trail (t : Thread) (spot : Spot) : Trail := ⟨spot, t.opened, t.captures⟩

/-- The thread has come to a place of the text on a way from the first step. -/
def Thread.Came (steps : Array Step) (text : List Char) (t : Thread) (spot : Spot) : Prop :=
  ∃ s : Spot, s.In text ∧ s.index = t.start ∧ ∃ n, Way steps n 0 (.start s) t.place (t.trail spot)

namespace Thread.Came
variable {t q : Thread} {u : Spot}

theorem begin (h : spot.In text) : (Thread.begin spot.index).Came steps text spot :=
  ⟨spot, h, rfl, 0, .stay 0 _⟩

theorem go (h : t.Came steps text spot) (hq : q.start = t.start)
    (hm : Moves steps t.place (t.trail spot) q.place (q.trail u)) : q.Came steps text u := by
  obtain ⟨s, hs, hi, n, hw⟩ := h
  exact ⟨s, hs, hi.trans hq.symm, n + 1, hw.append (.go hm (.stay _ _))⟩

end Thread.Came

theorem closeGroup_start (t : Thread) (number index place : Nat) :
    (t.closeGroup number index place).start = t.start ∧
      (t.closeGroup number index place).place = place := by
  unfold Thread.closeGroup
  split <;> exact ⟨rfl, rfl⟩

theorem closeGroup_trail (t : Thread) (number place : Nat) (spot : Spot) :
    (t.closeGroup number spot.index place).trail spot = (t.trail spot).closeGroup number := by
  cases h : t.opened <;> simp [Thread.closeGroup, Trail.closeGroup, Thread.trail, h]

/-- What one can go on to from the step of a thread: `news` are here, `ahead` behind the next character,
and there is nothing else. -/
structure Thread.Advances (steps : Array Step) (spot : Spot) (t : Thread)
    (news ahead : List Thread) : Prop where
  length : news.length ≤ 2
  undone : steps[t.place]? ≠ some .done
  here : ∀ q ∈ news, q.start = t.start ∧
    Moves steps t.place (t.trail spot) q.place (q.trail spot)
  behind : ∀ q ∈ ahead, q.start = t.start ∧
    ∀ {c u}, spot.Reads [c] u → Moves steps t.place (t.trail spot) q.place (q.trail u)
  all : ∀ next u, Goes steps t.place spot next u → (u = spot ∧ ∃ q ∈ news, q.place = next) ∨
    ∃ c, spot.Reads [c] u ∧ ∃ q ∈ ahead, q.place = next

namespace Thread.Advances
variable {t q r : Thread}

theorem nowhere (hdone : steps[t.place]? ≠ some .done)
    (h : ∀ next u, ¬ Goes steps t.place spot next u) : t.Advances steps spot [] [] :=
  ⟨Nat.zero_le 2, hdone, fun _ hq => absurd hq List.not_mem_nil,
    fun _ hq => absurd hq List.not_mem_nil, fun next u hg => absurd hg (h next u)⟩

theorem stay (hdone : steps[t.place]? ≠ some .done) (hq : q.start = t.start)
    (hg : Moves steps t.place (t.trail spot) q.place (q.trail spot))
    (h : ∀ next u, Goes steps t.place spot next u → next = q.place ∧ u = spot) :
    t.Advances steps spot [q] [] := by
  refine ⟨Nat.le_succ 1, hdone, fun p hp => ?_, fun _ hp => absurd hp List.not_mem_nil,
    fun next u hgo => ?_⟩
  · rw [List.mem_singleton.1 hp]
    exact ⟨hq, hg⟩
  · obtain ⟨rfl, rfl⟩ := h next u hgo
    exact .inl ⟨rfl, q, List.mem_singleton.2 rfl, rfl⟩

end Thread.Advances

/-- A thread whose step has not been come to completes a match there, or is followed to what it goes
on to. -/
theorem follow_unseen {fuel : Nat} {seen : Places} {onward todo : List Thread} {t : Thread}
    (hseen : seen.has t.place = false) :
    (steps[t.place]? = some .done ∧
        follow steps spot (fuel + 1) seen onward (t :: todo) = ⟨onward.reverse, some t⟩) ∨
      ∃ news ahead, t.Advances steps spot news ahead ∧
        follow steps spot (fuel + 1) seen onward (t :: todo) =
          follow steps spot fuel (seen.add t.place) (ahead ++ onward) (news ++ todo) := by
  rw [follow, if_neg (Bool.eq_false_iff.1 hseen)]
  dsimp only
  cases hstep : steps[t.place]? with
  | none =>
    have hnot : ∀ next u, ¬ Goes steps t.place spot next u := fun _ _ => Goes.not_of_none hstep
    exact .inr ⟨[], [], .nowhere (by simp [hstep]) hnot, rfl⟩
  | some x =>
    cases x with
    | take set next =>
      cases hin : spot.nextIn set with
      | true =>
        refine .inr ⟨[], [t.goTo next], ⟨Nat.zero_le 2, by simp [hstep],
          fun _ hq => absurd hq List.not_mem_nil, fun q hq => ?_, fun _ u hg => ?_⟩, ?_⟩
        · rw [List.mem_singleton.1 hq]
          refine ⟨rfl, fun {c u} hu => ?_⟩
          obtain ⟨rest, hrest, -⟩ := id hu
          rw [Spot.nextIn, hrest] at hin
          exact ⟨_, hstep, .take hstep hu hin, rfl⟩
        · obtain ⟨rfl, c, hc, -⟩ := hg.of_take hstep
          exact .inr ⟨c, hc, _, List.mem_singleton.2 rfl, rfl⟩
        · simp only [hin, if_true, List.cons_append, List.nil_append]
      | false =>
        have hnot : ∀ next u, ¬ Goes steps t.place spot next u := by
          intro _ u hg
          obtain ⟨-, c, ⟨rest, hrest, -⟩, hset⟩ := hg.of_take hstep
          rw [Spot.nextIn, hrest] at hin
          exact Bool.false_ne_true (hin.symm.trans hset)
        refine .inr ⟨[], [], .nowhere (by simp [hstep]) hnot, ?_⟩
        simp only [hin, Bool.false_eq_true, if_false, List.nil_append]
    | check a next =>
      cases ha : a.holdsAt spot with
      | true =>
        refine .inr ⟨[t.goTo next], [], .stay (by simp [hstep]) rfl
          ⟨_, hstep, .check hstep ha, rfl⟩ fun _ u hg => ?_, ?_⟩
        · obtain ⟨rfl, -, rfl⟩ := hg.of_check hstep
          exact ⟨rfl, rfl⟩
        · simp only [ha, if_true, List.cons_append, List.nil_append]
      | false =>
        have hnot : ∀ next u, ¬ Goes steps t.place spot next u := by
          intro _ u hg
          rw [(hg.of_check hstep).2.1] at ha
          cases ha
        refine .inr ⟨[], [], .nowhere (by simp [hstep]) hnot, ?_⟩
        simp only [ha, Bool.false_eq_true, if_false, List.nil_append]
    | fork first second =>
      refine .inr ⟨[t.goTo first, t.goTo second], [], ⟨Nat.le_refl 2, by simp [hstep],
        fun q hq => ?_, fun _ hq => absurd hq List.not_mem_nil, fun _ u hg => ?_⟩, rfl⟩
      · rcases List.mem_cons.1 hq with rfl | hq
        · exact ⟨rfl, _, hstep, .first hstep, rfl⟩
        · rw [List.mem_singleton.1 hq]
          exact ⟨rfl, _, hstep, .second hstep, rfl⟩
      · obtain ⟨rfl | rfl, rfl⟩ := hg.of_fork hstep
        · exact .inl ⟨rfl, t.goTo _, List.mem_cons_self, rfl⟩
        · exact .inl ⟨rfl, t.goTo _, List.mem_cons_of_mem _ (List.mem_singleton.2 rfl), rfl⟩
    | skip next =>
      exact .inr ⟨[t.goTo next], [], .stay (by simp [hstep]) rfl
        ⟨_, hstep, .skip hstep, rfl⟩ fun _ _ hg => hg.of_skip hstep, rfl⟩
    | opening next =>
      exact .inr ⟨[t.openGroup spot.index next], [], .stay (by simp [hstep]) rfl
        ⟨_, hstep, .opening hstep, rfl⟩ fun _ _ hg => hg.of_opening hstep, rfl⟩
    | closing number next =>
      obtain ⟨hstart, hplace⟩ := closeGroup_start t number spot.index next
      refine .inr ⟨[t.closeGroup number spot.index next], [], .stay (by simp [hstep]) hstart
        ?_ fun _ _ hg => ?_, rfl⟩
      · refine ⟨_, hstep, ?_, by rw [closeGroup_trail]; rfl⟩
        rw [hplace]
        exact .closing hstep
      · rw [hplace]
        exact hg.of_closing hstep
    | done => exact .inl ⟨rfl, rfl⟩

/-- Threads that are followed have come where they are. -/
theorem follow_came {fuel : Nat} {seen : Places} {onward todo : List Thread}
    (hw : ∀ {c u}, spot.Reads [c] u → ∀ t ∈ onward, t.Came steps text u)
    (ht : ∀ t ∈ todo, t.Came steps text spot) :
    (∀ {c u}, spot.Reads [c] u →
        ∀ t ∈ (follow steps spot fuel seen onward todo).onward, t.Came steps text u) ∧
      ∀ t ∈ (follow steps spot fuel seen onward todo).finished,
        t.Came steps text spot ∧ steps[t.place]? = some .done := by
  have hend : (∀ {c u}, spot.Reads [c] u → ∀ t ∈ onward.reverse, t.Came steps text u) :=
    fun hu t hm => hw hu t (List.mem_reverse.1 hm)
  induction fuel generalizing seen onward todo with
  | zero => exact ⟨hend, nofun⟩
  | succ fuel ih =>
    cases todo with
    | nil => exact ⟨hend, nofun⟩
    | cons t todo =>
      have h := ht t List.mem_cons_self
      have hr : ∀ t ∈ todo, t.Came steps text spot := fun q hq => ht q (List.mem_cons_of_mem _ hq)
      cases hseen : seen.has t.place with
      | true =>
        rw [follow, if_pos hseen]
        exact ih hw hr hend
      | false =>
        rcases follow_unseen hseen with ⟨hdone, he⟩ | ⟨news, ahead, hadv, he⟩
        · rw [he]
          refine ⟨hend, fun q hq => ?_⟩
          cases hq
          exact ⟨h, hdone⟩
        · rw [he]
          have hmore : ∀ {c u}, spot.Reads [c] u → ∀ q ∈ ahead ++ onward,
              q.Came steps text u := by
            intro c u hu q hq
            rcases List.mem_append.1 hq with hq | hq
            · exact h.go (hadv.behind q hq).1 ((hadv.behind q hq).2 hu)
            · exact hw hu q hq
          refine ih hmore (fun q hq => ?_) fun hu q hq => hmore hu q (List.mem_reverse.1 hq)
          rcases List.mem_append.1 hq with hq | hq
          · exact h.go (hadv.here q hq).1 (hadv.here q hq).2
          · exact hr q hq

/-! ### All steps are come to -/

namespace Places

/-- How many steps have not been come to. -/
def left (seen : Places) : Nat := seen.toList.count false

theorem left_none (size : Nat) : (Places.none size).left = size := by
  simp [left, Places.none]

theorem has_add (seen : Places) (place other : Nat) :
    (seen.add place).has other = (seen.has other || (place == other)) := by
  unfold has add
  by_cases h : place = other
  · subst h
    by_cases hp : place < seen.size <;> simp [hp]
  · simp [Array.getD_eq_getD_getElem?, Array.getElem?_setIfInBounds_ne h, h]

theorem left_add {seen : Places} {place : Nat} (h : seen.has place = false) :
    (seen.add place).left + 1 = seen.left := by
  unfold has at h
  by_cases hp : place < seen.size
  · have hlt : place < seen.toList.length := hp
    have hfalse : seen.toList[place] = false := by simpa [hp] using h
    have hmem : false ∈ seen.toList := hfalse ▸ List.getElem_mem hp
    have hpos := List.count_pos_iff.2 hmem
    unfold left add
    rw [Array.toList_setIfInBounds, List.count_set hp, hfalse]
    show seen.toList.count false - 1 + 0 + 1 = seen.toList.count false
    omega
  · simp [hp] at h

end Places

/-- Whatever one can go on to from a step that has been come to has been come to as well, or waits
here or behind the next character; no match is complete. -/
def Closed (steps : Array Step) (spot : Spot) (seen : Places) (onward todo : List Thread) : Prop :=
  ∀ place, seen.has place = true → steps[place]? ≠ some .done ∧
    ∀ next u, Goes steps place spot next u →
      (u = spot ∧ (seen.has next = true ∨ ∃ t ∈ todo, t.place = next)) ∨
        ∃ c, spot.Reads [c] u ∧ ∃ t ∈ onward, t.place = next

namespace Closed
variable {seen : Places} {onward todo : List Thread} {place last : Nat} {u : Spot}

/-- When nothing waits, a way to a complete match leads over the next character. -/
theorem reach (h : Closed steps spot seen onward []) (hp : seen.has place = true)
    (hr : Reach steps place spot last u) (hl : steps[last]? = some .done) :
    ∃ t ∈ onward, ∃ c v, spot.Reads [c] v ∧ Reach steps t.place v last u := by
  generalize hs : spot = s at hr
  induction hr with
  | rfl place s => exact absurd hl (h place hp).1
  | @go place next last s t u hg more ih =>
    subst hs
    rcases (h place hp).2 next t hg with ⟨rfl, hnext⟩ | ⟨c, hc, q, hq, rfl⟩
    · rcases hnext with hnext | ⟨q, hq, -⟩
      · exact ih hnext hl rfl
      · exact absurd hq List.not_mem_nil
    · exact ⟨q, hq, c, t, hc, more⟩

theorem drop {t : Thread} (h : Closed steps spot seen onward (t :: todo))
    (ht : seen.has t.place = true) : Closed steps spot seen onward todo := by
  intro place hp
  refine ⟨(h place hp).1, fun next u hg => ?_⟩
  rcases (h place hp).2 next u hg with ⟨hu, hnext | ⟨q, hq, hqn⟩⟩ | hon
  · exact .inl ⟨hu, .inl hnext⟩
  · rcases List.mem_cons.1 hq with rfl | hq
    · exact .inl ⟨hu, .inl (hqn ▸ ht)⟩
    · exact .inl ⟨hu, .inr ⟨q, hq, hqn⟩⟩
  · exact .inr hon

/-- A step that is come to, with all one can go on to from it. -/
theorem add {t : Thread} {news : List Thread} {ahead : List Thread}
    (h : Closed steps spot seen onward (t :: todo)) (hadv : t.Advances steps spot news ahead) :
    Closed steps spot (seen.add t.place) (ahead ++ onward) (news ++ todo) := by
  intro place hp
  rw [Places.has_add, Bool.or_eq_true, beq_iff_eq] at hp
  rcases hp with hp | rfl
  · refine ⟨(h place hp).1, fun next u hg => ?_⟩
    rcases (h place hp).2 next u hg with ⟨hu, hnext | ⟨q, hq, hqn⟩⟩ | ⟨c, hc, q, hq, hqn⟩
    · exact .inl ⟨hu, .inl (by rw [Places.has_add, hnext, Bool.true_or])⟩
    · rcases List.mem_cons.1 hq with rfl | hq
      · exact .inl ⟨hu, .inl (by simp [Places.has_add, hqn])⟩
      · exact .inl ⟨hu, .inr ⟨q, List.mem_append_right _ hq, hqn⟩⟩
    · exact .inr ⟨c, hc, q, List.mem_append_right _ hq, hqn⟩
  · refine ⟨hadv.undone, fun next u hg => ?_⟩
    rcases hadv.all next u hg with ⟨hu, q, hq, hqn⟩ | ⟨c, hc, q, hq, hqn⟩
    · exact .inl ⟨hu, .inr ⟨q, List.mem_append_left _ hq, hqn⟩⟩
    · exact .inr ⟨c, hc, q, List.mem_append_left _ hq, hqn⟩

end Closed

/-- Following threads finishes a match or brings threads over the next character for every way to a
complete match that there is. -/
theorem follow_complete {fuel : Nat} {seen : Places} {onward todo : List Thread}
    (hfuel : todo.length + 2 * seen.left < fuel) (h : Closed steps spot seen onward todo)
    {place last : Nat} {u : Spot}
    (hp : seen.has place = true ∨ ∃ t ∈ todo, t.place = place) (hr : Reach steps place spot last u)
    (hl : steps[last]? = some .done) :
    (follow steps spot fuel seen onward todo).finished.isSome ∨
      ∃ t ∈ (follow steps spot fuel seen onward todo).onward,
        ∃ c v, spot.Reads [c] v ∧ Reach steps t.place v last u := by
  induction fuel generalizing seen onward todo with
  | zero => omega
  | succ fuel ih =>
    cases todo with
    | nil =>
      rw [follow]
      obtain ⟨t, ht, c, v, hc, hv⟩ := h.reach (hp.resolve_right (by simp)) hr hl
      exact .inr ⟨t, List.mem_reverse.2 ht, c, v, hc, hv⟩
    | cons t todo =>
      rw [List.length_cons] at hfuel
      by_cases hseen : seen.has t.place = true
      · rw [follow, if_pos hseen]
        refine ih (by omega) (h.drop hseen) ?_
        rcases hp with hp | ⟨q, hq, rfl⟩
        · exact .inl hp
        · rcases List.mem_cons.1 hq with rfl | hq
          · exact .inl hseen
          · exact .inr ⟨q, hq, rfl⟩
      · have hleft := Places.left_add (Bool.eq_false_iff.2 hseen)
        rcases follow_unseen (Bool.eq_false_iff.2 hseen) with ⟨-, he⟩ | ⟨news, ahead, hadv, he⟩
        · rw [he]
          exact .inl rfl
        · rw [he]
          have hlen := hadv.length
          refine ih (by rw [List.length_append]; omega) (h.add hadv) ?_
          rcases hp with hp | ⟨q, hq, rfl⟩
          · exact .inl (by rw [Places.has_add, hp, Bool.true_or])
          · rcases List.mem_cons.1 hq with rfl | hq
            · exact .inl (by simp [Places.has_add])
            · exact .inr ⟨q, List.mem_append_right _ hq, rfl⟩

end

end CodeEditing
