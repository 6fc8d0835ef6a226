import CodeEditing.Proofs.Pattern.Follow

/-! A search finds matches of its pattern.

`Pattern.search_catches`: what a search finds is a match of the pattern with its groups, and
`Pattern.search_complete`: it finds something where there is a match. For the first, a match found so far
is behind a way from the first step (`Matcher.Found`). For the second, a way to a complete match stays
ahead until one is found (`Matcher.Hope`). A pattern held at the start is found there
(`Pattern.held_sound`), and is not when the text begins with something else (`Pattern.held_missed`). -/
namespace CodeEditing

/-! ### Searches -/

namespace Matcher
variable {p : Matcher} {text : List Char}

/-- The match is complete behind a way from the first step, which has closed its groups. -/
def Found (p : Matcher) (text : List Char) (m : Match) : Prop :=
  ∃ (s : Spot) (t : Trail), s.In text ∧ s.index = m.start ∧ t.spot.index = m.stop ∧
    t.captures = m.captures ∧
    ∃ place n, Way p.steps n 0 (.start s) place t ∧ p.steps[place]? = some .done

theorem threadsAt_came {previous : Option Char} {index : Nat} {best : Option Match}
    {come : List Thread} {cs : List Char} (hs : Spot.In ⟨previous, index, cs⟩ text)
    (h : ∀ t ∈ come, t.Came p.steps text ⟨previous, index, cs⟩) :
    ∀ t ∈ p.threadsAt index best come, t.Came p.steps text ⟨previous, index, cs⟩ := by
  intro t ht
  rw [threadsAt] at ht
  split at ht
  · rcases List.mem_append.1 ht with ht | ht
    · exact h t ht
    · rw [List.mem_singleton.1 ht]
      exact .begin hs
  · exact h t ht

theorem bestAt_found {f : Front} {spot : Spot} {best : Option Match}
    (hf : ∀ t ∈ f.finished, t.Came p.steps text spot ∧ p.steps[t.place]? = some .done)
    (hb : ∀ b ∈ best, p.Found text b) : ∀ b ∈ f.bestAt spot.index best, p.Found text b := by
  intro b h
  rcases Option.or_eq_some_iff.1 h with h | ⟨_, h⟩
  · obtain ⟨t, ht, rfl⟩ := Option.map_eq_some_iff.1 h
    obtain ⟨⟨s, hs, hi, n, hw⟩, hdone⟩ := hf t ht
    exact ⟨s, t.trail spot, hs, hi, rfl, rfl, t.place, n, hw, hdone⟩
  · exact hb b h

theorem front_came {spot : Spot} {todo : List Thread}
    (h : ∀ t ∈ todo, t.Came p.steps text spot) :
    (∀ {c u}, spot.Reads [c] u → ∀ t ∈ (p.front spot todo).onward, t.Came p.steps text u) ∧
      ∀ t ∈ (p.front spot todo).finished,
        t.Came p.steps text spot ∧ p.steps[t.place]? = some .done :=
  follow_came (fun _ _ ht => absurd ht List.not_mem_nil) h

theorem run_found {previous : Option Char} {index : Nat} {come : List Thread}
    {best : Option Match} {cs : List Char} {m : Match} (hs : Spot.In ⟨previous, index, cs⟩ text)
    (hc : ∀ t ∈ come, t.Came p.steps text ⟨previous, index, cs⟩)
    (hb : ∀ b ∈ best, p.Found text b) (h : p.run previous index come best cs = some m) :
    p.Found text m := by
  induction cs generalizing previous index come best with
  | nil =>
    exact bestAt_found (front_came (threadsAt_came hs hc)).2 hb m h
  | cons c cs ih =>
    rw [run] at h
    split at h
    · exact hb m h
    · obtain ⟨hw, hf⟩ := front_came (threadsAt_came hs hc)
      have hnext : Spot.Reads ⟨previous, index, c :: cs⟩ [c] ⟨some c, index + 1, cs⟩ :=
        ⟨cs, rfl, rfl⟩
      exact ih (hs.reads hnext) (hw hnext) (bestAt_found hf hb) h

theorem front_complete (p : Matcher) {spot u : Spot} {todo : List Thread} {t : Thread}
    (ht : t ∈ todo) {last : Nat} (hr : Reach p.steps t.place spot last u)
    (hl : p.steps[last]? = some .done) :
    (p.front spot todo).finished.isSome ∨ ∃ q ∈ (p.front spot todo).onward,
      ∃ c v, spot.Reads [c] v ∧ Reach p.steps q.place v last u := by
  refine follow_complete ?_ ?_ (.inr ⟨t, ht, rfl⟩) hr hl
  · rw [Places.left_none]
    omega
  · intro place hp
    have hsize : p.steps[place]? = none := by
      refine Array.getElem?_eq_none_iff.2 (Nat.le_of_not_lt fun hlt => ?_)
      simp [Places.has, Places.none, hlt] at hp
    exact ⟨by simp [hsize], fun next u hg => absurd hg (Goes.not_of_none hsize)⟩

theorem run_isSome (p : Matcher) {previous : Option Char} {index : Nat} {come : List Thread}
    {best : Option Match} (cs : List Char) (h : best.isSome = true) :
    (p.run previous index come best cs).isSome = true := by
  have hbest : ∀ f : Front, (f.bestAt index best).isSome = true := by
    intro f
    rw [Front.bestAt, Option.isSome_or, h, Bool.or_true]
  induction cs generalizing previous index come best with
  | nil => exact hbest _
  | cons c cs ih =>
    rw [run]
    split
    · exact h
    · exact ih (hbest _) fun f => by rw [Front.bestAt, Option.isSome_or, hbest, Bool.or_true]

/-- A way to a complete match is still ahead: a thread is on it, or one that begins here or later
will be. -/
def Hope (p : Matcher) (spot : Spot) (come : List Thread) : Prop :=
  ∃ last u, p.steps[last]? = some .done ∧
    ((∃ t ∈ come, Reach p.steps t.place spot last u) ∨
      ∃ cs s, spot.Reads cs s ∧ (p.held = true → s.index = 0) ∧ Reach p.steps 0 s last u)

/-- A way ahead is that of a thread, or begins further on. -/
theorem Hope.threadsAt {spot : Spot} {come : List Thread} (h : p.Hope spot come) :
    ∃ last u, p.steps[last]? = some .done ∧
      ((∃ t ∈ p.threadsAt spot.index none come, Reach p.steps t.place spot last u) ∨
        ∃ c cs v s, spot.Reads [c] v ∧ v.Reads cs s ∧ (p.held = true → s.index = 0) ∧
          Reach p.steps 0 s last u) := by
  obtain ⟨last, u, hl, h⟩ := h
  refine ⟨last, u, hl, ?_⟩
  unfold Matcher.threadsAt
  rcases h with ⟨t, ht, hr⟩ | ⟨cs, s, hs, hheld, hr⟩
  · left
    split
    · exact ⟨t, List.mem_append_left _ ht, hr⟩
    · exact ⟨t, ht, hr⟩
  · cases cs with
    | nil =>
      left
      obtain rfl : s = spot := hs
      have hnew : (Option.isNone (none : Option Match) && (s.index == 0 || !p.held)) = true := by
        cases hh : p.held with
        | true => simp [hheld hh]
        | false => simp
      rw [if_pos hnew]
      exact ⟨.begin s.index, List.mem_append_right _ (List.mem_singleton.2 rfl), hr⟩
    | cons c cs =>
      right
      obtain ⟨rest, hrest, hs⟩ := hs
      exact ⟨c, cs, _, s, ⟨rest, hrest, rfl⟩, hs, hheld, hr⟩

theorem run_complete {previous : Option Char} {index : Nat} {come : List Thread} {cs : List Char}
    (h : p.Hope ⟨previous, index, cs⟩ come) : (p.run previous index come none cs).isSome = true := by
  induction cs generalizing previous index come with
  | nil =>
    have hend : ∀ {c v}, ¬ Spot.Reads ⟨previous, index, []⟩ [c] v := by
      rintro c v ⟨rest, hr, -⟩
      cases hr
    obtain ⟨last, u, hl, ⟨t, ht, hr⟩ | ⟨c, -, v, -, hv, -⟩⟩ := h.threadsAt
    · rw [run, Front.bestAt, Option.isSome_or, Option.isSome_map]
      rcases p.front_complete ht hr hl with hf | ⟨-, -, c, v, hv, -⟩
      · exact Bool.or_eq_true_iff.2 (.inl hf)
      · exact absurd hv hend
    · exact absurd hv hend
  | cons c cs ih =>
    obtain ⟨last, u, hl, h⟩ := h.threadsAt
    have hgo : ¬ ((p.threadsAt index none come).isEmpty &&
        (Option.isSome (none : Option Match) || p.held)) = true := by
      intro hstop
      obtain ⟨hempty, hheld⟩ := Bool.and_eq_true_iff.1 hstop
      rcases h with ⟨t, ht, -⟩ | ⟨d, ds, v, s, hv, hs, hzero, -⟩
      · rw [List.isEmpty_iff.1 hempty] at ht
        exact List.not_mem_nil ht
      · have hi := (hv.append hs).index_eq
        rw [hzero hheld, List.length_append, List.length_singleton] at hi
        omega
    rw [run]
    dsimp only
    rw [if_neg hgo]
    cases hbest : (p.front ⟨previous, index, c :: cs⟩ (p.threadsAt index none come)).bestAt index
        none with
    | some b => exact p.run_isSome cs rfl
    | none =>
      refine ih ⟨last, u, hl, ?_⟩
      rcases h with ⟨t, ht, hr⟩ | ⟨d, ds, v, s, hv, hs, hzero, hr⟩
      · left
        rcases p.front_complete ht hr hl with hf | ⟨q, hq, d, v, hv, hr⟩
        · rw [Front.bestAt, Option.or_none, Option.map_eq_none_iff] at hbest
          rw [hbest] at hf
          cases hf
        · obtain ⟨-, rfl⟩ := hv.single rfl
          exact ⟨q, hq, hr⟩
      · right
        obtain ⟨-, rfl⟩ := hv.single rfl
        exact ⟨ds, s, hs, hzero, hr⟩

end Matcher

/-! ### Patterns -/

namespace Pattern
variable {p : Pattern} {text : List Char}

theorem done_not_mem_rowOf {n size base : Nat} {part : Nat → Nat → List Step}
    (h : ∀ i b, Step.done ∉ part i b) : Step.done ∉ rowOf n size base part := by
  intro hd
  obtain ⟨i, -, hi⟩ := List.mem_flatMap.1 hd
  exact h _ _ hi

theorem done_ne_choose (greedy : Bool) (a b : Nat) : Step.done ≠ .choose greedy a b := by
  cases greedy <;> nofun

/-- No step of a pattern completes a match. -/
theorem done_not_mem_code (p : Pattern) (base next : Nat) : Step.done ∉ p.code base next := by
  induction p generalizing base next with
  | empty | one set | anchor a => simp [code]
  | text cs =>
    show Step.done ∉ textCode base next cs
    induction cs generalizing base with
    | nil => simp [textCode]
    | cons c cs ih =>
      cases cs with
      | nil => simp [textCode]
      | cons d ds => simpa [textCode] using ih (base + 1)
  | seq p q ihp ihq =>
    rw [code, List.mem_append]
    exact not_or.2 ⟨ihp _ _, ihq _ _⟩
  | alt p q ihp ihq =>
    rw [code, List.mem_append, List.mem_cons]
    exact not_or.2 ⟨not_or.2 ⟨by simp, ihp _ _⟩, ihq _ _⟩
  | group n p ih =>
    rw [code, List.mem_append, List.mem_cons, List.mem_singleton]
    exact not_or.2 ⟨not_or.2 ⟨by simp, ih _ _⟩, by simp⟩
  | times greedy lo hi p ih =>
    have hcopies : ∀ size n base next, Step.done ∉ copies p.code size n base next :=
      fun _ _ _ _ => done_not_mem_rowOf fun _ _ => ih _ _
    have hoptions : ∀ size n base next, Step.done ∉ options greedy p.code size n base next := by
      refine fun _ _ _ _ => done_not_mem_rowOf fun _ _ h => ?_
      exact (List.mem_cons.1 h).elim (done_ne_choose _ _ _) (ih _ _)
    cases hi with
    | none =>
      cases lo with
      | zero =>
        rw [code]
        split
        · rw [List.mem_cons]
          exact not_or.2 ⟨done_ne_choose _ _ _, ih _ _⟩
        · rw [List.mem_append, List.mem_cons, List.mem_singleton]
          exact not_or.2 ⟨not_or.2 ⟨done_ne_choose _ _ _, ih _ _⟩, done_ne_choose _ _ _⟩
      | succ lo =>
        rw [code, List.mem_append, List.mem_append, List.mem_singleton]
        exact not_or.2 ⟨not_or.2 ⟨hcopies _ _ _ _, ih _ _⟩, done_ne_choose _ _ _⟩
    | some hi =>
      rw [code]
      split
      · simp
      · dsimp only
        rw [List.mem_append]
        exact not_or.2 ⟨hcopies _ _ _ _, hoptions _ _ _ _⟩

theorem placed_matcher (p : Pattern) :
    Placed p.matcher.steps 0 (p.code 0 p.steps) ∧ p.matcher.steps[p.steps]? = some .done := by
  obtain ⟨hcode, hdone, -⟩ := placed_append.1 (placed_toArray [] (p.code 0 p.steps ++ [Step.done]))
  rw [length_code] at hdone
  rw [show ([] : List Step).length + p.steps = p.steps by simp] at hdone
  exact ⟨hcode, hdone⟩

/-- A match is complete behind all steps only. -/
theorem eq_steps_of_done (p : Pattern) {place : Nat}
    (h : p.matcher.steps[place]? = some .done) : place = p.steps := by
  have hlen := length_code p 0 p.steps
  rw [matcher, List.getElem?_toArray] at h
  rcases Nat.lt_trichotomy place p.steps with hlt | heq | hgt
  · rw [List.getElem?_append_left (by omega)] at h
    exact absurd (List.mem_of_getElem? h) (p.done_not_mem_code 0 p.steps)
  · exact heq
  · rw [List.getElem?_eq_none (by rw [List.length_append, List.length_singleton]; omega)] at h
    exact nomatch h

/-- What a search finds is a match of the pattern, with what its groups took. -/
theorem search_catches {m : Match} (h : p.matcher.search text = some m) :
    ∃ (s : Spot) (t : Trail), s.In text ∧ s.index = m.start ∧ t.spot.index = m.stop ∧
      t.captures = m.captures ∧ p.Catches (.start s) t := by
  obtain ⟨s, t, hs, hi, ht, hc, place, n, hw, hdone⟩ := Matcher.run_found ⟨[], rfl⟩
    (fun _ ht => absurd ht List.not_mem_nil) (fun b hb => absurd hb (Option.not_mem_none b)) h
  obtain rfl := p.eq_steps_of_done hdone
  obtain ⟨u, k, hu, -, hw⟩ := code_sound _ p p.placed_matcher.1 hw (by omega)
  cases hw with
  | stay => exact ⟨s, t, hs, hi, ht, hc, hu⟩
  | go hm =>
    obtain ⟨-, -, hg, -⟩ := hm
    exact absurd hg (Goes.not_of_done hdone)

theorem search_sound {m : Match} (h : p.matcher.search text = some m) :
    ∃ s t : Spot, s.In text ∧ s.index = m.start ∧ t.index = m.stop ∧ p.Takes s t := by
  obtain ⟨s, t, hs, hi, ht, -, hc⟩ := search_catches h
  exact ⟨s, t.spot, hs, hi, ht, hc.takes⟩

/-- A search finds something where there is a match. -/
theorem search_complete {s t : Spot} (hs : s.In text) (h : p.Takes s t) :
    (p.matcher.search text).isSome = true := by
  obtain ⟨hcode, hdone⟩ := p.placed_matcher
  obtain ⟨cs, hcs⟩ := hs
  refine Matcher.run_complete ⟨p.steps, t, hdone, .inr ⟨cs, s, hcs, fun hheld => ?_, ?_⟩⟩
  · exact of_decide_eq_true (h.holdsAt hheld)
  · exact code_complete _ p hcode h

/-- What a pattern finds that is held at the start lies there. -/
theorem held_sound {m : Match} (hp : p.beginsAt .textStart = true)
    (h : p.matcher.search text = some m) :
    ∃ t, p.Takes (.start text) t ∧ t.index = m.stop := by
  obtain ⟨s, t, ⟨cs, hcs⟩, -, ht, htakes⟩ := search_sound h
  have hzero : s.index = 0 := eq_of_beq (htakes.holdsAt hp)
  have hlen : cs.length = 0 := by
    have : s.index = 0 + cs.length := hcs.index_eq
    omega
  obtain rfl := List.eq_nil_of_length_eq_zero hlen
  obtain rfl : s = .start text := hcs
  exact ⟨t, htakes, ht⟩

/-- A pattern that takes a character is not found at the start of a text that begins with one of those it
avoids in the first place. -/
theorem held_missed {b : List Char} {c : Char} {cs : List Char} (hp : p.beginsAt .textStart = true)
    (hsome : p.takesSome = true) (hfirst : p.avoidsFirst b = true) (hc : c ∈ b) :
    p.matcher.search (c :: cs) = none := by
  refine Option.eq_none_iff_forall_not_mem.2 fun m hm => ?_
  obtain ⟨t, htakes, -⟩ := held_sound hp hm
  obtain ⟨taken, hreads, hnot⟩ := htakes.avoidsFirst hfirst
  have hrest : c :: cs = taken ++ t.rest := hreads.rest_eq
  cases taken with
  | nil =>
    have hlt := htakes.index_lt hsome
    rw [hreads.index_eq] at hlt
    exact Nat.lt_irrefl _ hlt
  | cons d taken =>
    obtain rfl := (List.cons.inj hrest).1
    exact hnot c rfl hc

/-- A pattern that takes a character does not match the empty text. -/
theorem occursIn_nil (h : p.takesSome = true) : p.matcher.occursIn [] = false := by
  cases ho : p.matcher.occursIn [] with
  | false => rfl
  | true =>
    obtain ⟨m, hm⟩ := Option.isSome_iff_exists.1 ho
    obtain ⟨s, t, ⟨front, hfront⟩, -, -, htakes⟩ := search_sound hm
    obtain ⟨cs, hcs⟩ := htakes.reads
    have hrest : [] = front ++ (cs ++ t.rest) := by
      rw [← hcs.rest_eq]
      exact hfront.rest_eq
    have hnil : cs = [] := (List.append_eq_nil_iff.1 (List.append_eq_nil_iff.1 hrest.symm).2).1
    subst hnil
    exact absurd hcs.index_eq (Nat.ne_of_gt (htakes.index_lt h))

theorem held_complete {t : Spot} (h : p.Takes (.start text) t) :
    (p.matcher.search text).isSome = true :=
  search_complete ⟨[], rfl⟩ h

end Pattern

end CodeEditing
