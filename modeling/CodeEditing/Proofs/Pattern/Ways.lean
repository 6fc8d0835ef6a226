import CodeEditing.Pattern.Matcher
import CodeEditing.Proofs.Pattern.Groups

/-! Ways through the steps of a pattern.

A way goes from step to step while it reads a text and opens and closes groups (`Way`). Steps written
for a pattern (`Pattern.code`) are entered at their first place and left for the next place given.
`Pattern.code_sound`: a way in between is a match of the pattern (`Pattern.Catches`). What the groups
take has no say in where a way may lead (`Reach`), and `Pattern.code_complete` says that there is a way
for every match (`Pattern.Takes`). A way that is left behind is shorter than the whole, which is what
carries the loops. -/
namespace CodeEditing

/-- One step, from a place of the list and a place of the text to the next ones. -/
inductive Goes (steps : Array Step) : Nat → Spot → Nat → Spot → Prop
  | take {place next : Nat} {s t : Spot} {set : CharSet} {c : Char}
    (h : steps[place]? = some (.take set next)) (hs : s.Reads [c] t) (hc : set.contains c = true) :
    Goes steps place s next t
  | check {place next : Nat} {s : Spot} {a : Anchor} (h : steps[place]? = some (.check a next))
    (ha : a.holdsAt s = true) : Goes steps place s next s
  | first {place a b : Nat} {s : Spot} (h : steps[place]? = some (.fork a b)) :
    Goes steps place s a s
  | second {place a b : Nat} {s : Spot} (h : steps[place]? = some (.fork a b)) :
    Goes steps place s b s
  | skip {place next : Nat} {s : Spot} (h : steps[place]? = some (.skip next)) :
    Goes steps place s next s
  | opening {place next : Nat} {s : Spot} (h : steps[place]? = some (.opening next)) :
    Goes steps place s next s
  | closing {place number next : Nat} {s : Spot}
    (h : steps[place]? = some (.closing number next)) : Goes steps place s next s

/-- There is a way. -/
inductive Reach (steps : Array Step) : Nat → Spot → Nat → Spot → Prop
  | rfl (place : Nat) (s : Spot) : Reach steps place s place s
  | go {place next last : Nat} {s t u : Spot} (h : Goes steps place s next t)
    (more : Reach steps next t last u) : Reach steps place s last u

/-- What a step does to the groups. -/
def Step.mark : Step → Trail → Trail
  | opening _, t => t.openGroup
  | closing number _, t => t.closeGroup number
  | take _ _, t | check _ _, t | fork _ _, t | skip _, t | done, t => t

/-- One step, from a place of the list and a trail to the next ones. -/
def Moves (steps : Array Step) (place : Nat) (s : Trail) (next : Nat) (t : Trail) : Prop :=
  ∃ x, steps[place]? = some x ∧ Goes steps place s.spot next t.spot ∧ t = (x.mark s).moveTo t.spot

/-- A way of a number of steps. -/
inductive Way (steps : Array Step) : Nat → Nat → Trail → Nat → Trail → Prop
  | stay (place : Nat) (s : Trail) : Way steps 0 place s place s
  | go {n place next last : Nat} {s t u : Trail} (h : Moves steps place s next t)
    (more : Way steps n next t last u) : Way steps (n + 1) place s last u

variable {steps : Array Step} {place next last n : Nat}

section
variable {s t u : Spot}

theorem Reach.trans (h : Reach steps place s next t) (hr : Reach steps next t last u) :
    Reach steps place s last u := by
  induction h with
  | rfl => exact hr
  | go hg _ ih => exact .go hg (ih hr)

namespace Goes

theorem not_of_none (hstep : steps[place]? = none) : ¬ Goes steps place s last t := by
  intro h
  cases h with
  | take h | check h | first h | second h | skip h | opening h | closing h =>
    exact nomatch hstep.symm.trans h

theorem not_of_done (hstep : steps[place]? = some .done) : ¬ Goes steps place s last t := by
  intro h
  cases h with
  | take h | check h | first h | second h | skip h | opening h | closing h =>
    cases hstep.symm.trans h

theorem of_take {set : CharSet} (hstep : steps[place]? = some (.take set next))
    (h : Goes steps place s last t) :
    last = next ∧ ∃ c, s.Reads [c] t ∧ set.contains c = true := by
  cases h with
  | take h hs hc =>
    cases hstep.symm.trans h
    exact ⟨rfl, _, hs, hc⟩
  | check h | first h | second h | skip h | opening h | closing h => cases hstep.symm.trans h

theorem of_check {a : Anchor} (hstep : steps[place]? = some (.check a next))
    (h : Goes steps place s last t) : last = next ∧ a.holdsAt s = true ∧ t = s := by
  cases h with
  | check h ha =>
    cases hstep.symm.trans h
    exact ⟨rfl, ha, rfl⟩
  | take h | first h | second h | skip h | opening h | closing h => cases hstep.symm.trans h

theorem of_fork {a b : Nat} (hstep : steps[place]? = some (.fork a b))
    (h : Goes steps place s last t) : (last = a ∨ last = b) ∧ t = s := by
  cases h with
  | first h =>
    cases hstep.symm.trans h
    exact ⟨.inl rfl, rfl⟩
  | second h =>
    cases hstep.symm.trans h
    exact ⟨.inr rfl, rfl⟩
  | take h | check h | skip h | opening h | closing h => cases hstep.symm.trans h

theorem of_choose {greedy : Bool} {a b : Nat}
    (hstep : steps[place]? = some (.choose greedy a b)) (h : Goes steps place s last t) :
    (last = a ∨ last = b) ∧ t = s := by
  cases greedy with
  | true => exact of_fork hstep h
  | false =>
    obtain ⟨hl, ht⟩ := of_fork hstep h
    exact ⟨hl.symm, ht⟩

theorem of_skip (hstep : steps[place]? = some (.skip next)) (h : Goes steps place s last t) :
    last = next ∧ t = s := by
  cases h with
  | skip h =>
    cases hstep.symm.trans h
    exact ⟨rfl, rfl⟩
  | take h | check h | first h | second h | opening h | closing h => cases hstep.symm.trans h

theorem of_opening (hstep : steps[place]? = some (.opening next))
    (h : Goes steps place s last t) : last = next ∧ t = s := by
  cases h with
  | opening h =>
    cases hstep.symm.trans h
    exact ⟨rfl, rfl⟩
  | take h | check h | first h | second h | skip h | closing h => cases hstep.symm.trans h

theorem of_closing {number : Nat} (hstep : steps[place]? = some (.closing number next))
    (h : Goes steps place s last t) : last = next ∧ t = s := by
  cases h with
  | closing h =>
    cases hstep.symm.trans h
    exact ⟨rfl, rfl⟩
  | take h | check h | first h | second h | skip h | opening h => cases hstep.symm.trans h

theorem chooseFirst {greedy : Bool} {a b : Nat}
    (hstep : steps[place]? = some (.choose greedy a b)) : Goes steps place s a s := by
  cases greedy with
  | true => exact .first hstep
  | false => exact .second hstep

theorem chooseSecond {greedy : Bool} {a b : Nat}
    (hstep : steps[place]? = some (.choose greedy a b)) : Goes steps place s b s := by
  cases greedy with
  | true => exact .second hstep
  | false => exact .first hstep

end Goes

end

section
variable {s t u : Trail}

/-- A way that does not end where it is goes on. -/
theorem Way.leave (h : Way steps n place s last t) (hne : place ≠ last) :
    ∃ m r v, m < n ∧ Moves steps place s r v ∧ Way steps m r v last t := by
  cases h with
  | stay => exact absurd rfl hne
  | go hg more => exact ⟨_, _, _, Nat.lt_succ_self _, hg, more⟩

theorem Way.append {m : Nat} (h : Way steps n place s next t) (hm : Way steps m next t last u) :
    Way steps (n + m) place s last u := by
  induction h with
  | stay => rwa [Nat.zero_add]
  | go hg _ ih =>
    rw [Nat.succ_add]
    exact .go hg (ih hm)

namespace Moves

theorem of_take {set : CharSet} (hstep : steps[place]? = some (.take set next))
    (h : Moves steps place s last t) :
    last = next ∧ ∃ c u, s.spot.Reads [c] u ∧ set.contains c = true ∧ t = s.moveTo u := by
  obtain ⟨x, hx, hg, ht⟩ := h
  cases hstep.symm.trans hx
  obtain ⟨hl, c, hc, hset⟩ := hg.of_take hstep
  exact ⟨hl, c, t.spot, hc, hset, ht⟩

theorem of_check {a : Anchor} (hstep : steps[place]? = some (.check a next))
    (h : Moves steps place s last t) : last = next ∧ a.holdsAt s.spot = true ∧ t = s := by
  obtain ⟨x, hx, hg, ht⟩ := h
  cases hstep.symm.trans hx
  obtain ⟨hl, ha, hs⟩ := hg.of_check hstep
  exact ⟨hl, ha, by rw [ht, hs]; rfl⟩

theorem of_choose {greedy : Bool} {a b : Nat}
    (hstep : steps[place]? = some (.choose greedy a b)) (h : Moves steps place s last t) :
    (last = a ∨ last = b) ∧ t = s := by
  obtain ⟨x, hx, hg, ht⟩ := h
  obtain ⟨hl, hs⟩ := hg.of_choose hstep
  refine ⟨hl, ?_⟩
  rw [ht, hs]
  cases greedy with
  | true | false =>
    cases hstep.symm.trans hx
    rfl

theorem of_skip (hstep : steps[place]? = some (.skip next)) (h : Moves steps place s last t) :
    last = next ∧ t = s := by
  obtain ⟨x, hx, hg, ht⟩ := h
  cases hstep.symm.trans hx
  obtain ⟨hl, hs⟩ := hg.of_skip hstep
  exact ⟨hl, by rw [ht, hs]; rfl⟩

theorem of_opening (hstep : steps[place]? = some (.opening next))
    (h : Moves steps place s last t) : last = next ∧ t = s.openGroup := by
  obtain ⟨x, hx, hg, ht⟩ := h
  cases hstep.symm.trans hx
  obtain ⟨hl, hs⟩ := hg.of_opening hstep
  exact ⟨hl, by rw [ht, hs]; rfl⟩

theorem of_closing {number : Nat} (hstep : steps[place]? = some (.closing number next))
    (h : Moves steps place s last t) : last = next ∧ t = s.closeGroup number := by
  obtain ⟨x, hx, hg, ht⟩ := h
  cases hstep.symm.trans hx
  obtain ⟨hl, hs⟩ := hg.of_closing hstep
  refine ⟨hl, ?_⟩
  rw [ht, hs, ← Trail.closeGroup_spot s number]
  rfl

end Moves

end

/-! ### Where steps stand -/

/-- The steps stand in the list from a place on. -/
def Placed (steps : Array Step) : Nat → List Step → Prop
  | _, [] => True
  | base, x :: xs => steps[base]? = some x ∧ Placed steps (base + 1) xs

theorem placed_append {base : Nat} {a b : List Step} :
    Placed steps base (a ++ b) ↔ Placed steps base a ∧ Placed steps (base + a.length) b := by
  induction a generalizing base with
  | nil => simp [Placed]
  | cons x xs ih =>
    have hlen : base + 1 + xs.length = base + (x :: xs).length := by
      rw [List.length_cons]
      omega
    rw [List.cons_append, Placed, ih, hlen, Placed, and_assoc]

/-- The steps of an array stand in it. -/
theorem placed_toArray (front code : List Step) :
    Placed (front ++ code).toArray front.length code := by
  induction code generalizing front with
  | nil => trivial
  | cons x xs ih =>
    refine ⟨by simp, ?_⟩
    have := ih (front ++ [x])
    rwa [List.length_append, List.append_assoc] at this

namespace Pattern

/-! ### Parts in a row -/

theorem rowOf_succ (n size base : Nat) (part : Nat → Nat → List Step) :
    rowOf (n + 1) size base part =
      part 0 base ++ rowOf n size (base + size) fun i => part (i + 1) := by
  unfold rowOf
  rw [List.range_succ_eq_map, List.flatMap_cons, Nat.zero_mul, Nat.add_zero, List.flatMap_map]
  refine congrArg (part 0 base ++ List.flatMap · _) (funext fun i => ?_)
  rw [Nat.add_assoc, Nat.succ_mul, Nat.add_comm size]

theorem copies_succ (body : Nat → Nat → List Step) (size n base next : Nat) :
    copies body size (n + 1) base next =
      body base (if n = 0 then next else base + size) ++ copies body size n (base + size) next := by
  unfold copies
  rw [rowOf_succ]
  simp only [Nat.add_right_cancel_iff, Nat.zero_add, Nat.right_eq_add]

theorem options_succ (greedy : Bool) (body : Nat → Nat → List Step) (size n base next : Nat) :
    options greedy body size (n + 1) base next =
      .choose greedy (base + 1) next ::
        body (base + 1) (if n = 0 then next else base + (size + 1)) ++
          options greedy body size n (base + (size + 1)) next := by
  unfold options
  rw [rowOf_succ]
  simp only [Nat.add_right_cancel_iff, Nat.zero_add, Nat.right_eq_add, Nat.add_assoc _ size 1]

/-- Copies lead to what is behind them; with none of them this is where one begins. -/
theorem entry_eq (k base size : Nat) : (if k = 0 then base + k * size else base) = base := by
  split
  · next h => rw [h, Nat.zero_mul, Nat.add_zero]
  · rfl

/-- The same where optional matches are behind the copies, if there are any. -/
theorem entry_options_eq {lo hi : Nat} (h : ¬ (lo = 0 ∧ hi = 0)) (base size next : Nat) :
    (if lo = 0 then if hi ≤ lo then next else base + lo * size else base) = base := by
  split
  · next hlo => rw [if_neg (by omega), hlo, Nat.zero_mul, Nat.add_zero]
  · rfl

/-! ### Ways are matches -/

/-- What is told of the steps of a pattern: entered at the first of them, a way to a place outside is
left behind a match. -/
def Sound (steps : Array Step) (body : Nat → Nat → List Step) (size : Nat)
    (r : Trail → Trail → Prop) : Prop :=
  ∀ {base next n last : Nat} {s t : Trail}, Placed steps base (body base next) →
    Way steps n base s last t → last < base ∨ base + size ≤ last →
      ∃ u m, r s u ∧ m < n ∧ Way steps m next u last t

section
variable {body : Nat → Nat → List Step} {size k base : Nat} {greedy : Bool} {s t : Trail}
  {r : Trail → Trail → Prop}

/-- Some matches one after the other. With none of them the way begins where it goes on. -/
theorem copies_sound (hlen : ∀ b e, (body b e).length = size) (h : Sound steps body size r)
    (hp : Placed steps base (copies body size k base next))
    (hw : Way steps n (if k = 0 then next else base) s last t)
    (hl : last < base ∨ base + k * size ≤ last) :
    ∃ u m, Iterates r k s u ∧ m + k ≤ n ∧ Way steps m next u last t := by
  induction k generalizing base n s with
  | zero => exact ⟨s, n, rfl, Nat.le_refl n, hw⟩
  | succ k ih =>
    rw [copies_succ, placed_append, hlen] at hp
    rw [Nat.succ_mul] at hl
    obtain ⟨u, m, hr, hm, hw⟩ := h hp.1 hw (by omega)
    obtain ⟨v, l, hi, hlm, hw⟩ := ih hp.2 hw (by omega)
    exact ⟨v, l, ⟨u, hr, hi⟩, by omega, hw⟩

/-- No more than some matches one after the other. -/
theorem options_sound (hlen : ∀ b e, (body b e).length = size) (h : Sound steps body size r)
    (hp : Placed steps base (options greedy body size k base next))
    (hw : Way steps n (if k = 0 then next else base) s last t)
    (hl : last < base ∨ base + k * (size + 1) ≤ last) :
    ∃ j u m, j ≤ k ∧ Iterates r j s u ∧ m + min k 1 ≤ n ∧ Way steps m next u last t := by
  induction k generalizing base n s with
  | zero => exact ⟨0, s, n, Nat.le_refl 0, rfl, Nat.le_refl n, hw⟩
  | succ k ih =>
    rw [options_succ, List.cons_append, Placed, placed_append, hlen] at hp
    obtain ⟨hstep, hbody, hmore⟩ := hp
    rw [Nat.succ_mul] at hl
    rw [Nat.add_assoc, Nat.add_comm 1] at hmore
    obtain ⟨m, place, v, hm, hg, hv⟩ := hw.leave (by simp only [Nat.succ_ne_zero, if_false]; omega)
    obtain ⟨hplace, hvs⟩ := hg.of_choose hstep
    subst hvs
    rcases hplace with hplace | hplace
    · rw [hplace] at hv
      obtain ⟨u, l, hr, hlm, hu⟩ := h hbody hv (by omega)
      obtain ⟨j, x, i, hj, hi, hil, hx⟩ := ih hmore hu (by omega)
      exact ⟨j + 1, x, i, by omega, ⟨u, hr, hi⟩, by omega, hx⟩
    · rw [hplace] at hv
      exact ⟨0, v, m, by omega, rfl, by omega, hv⟩

/-- One match or more. -/
theorem loop_sound (h : Sound steps body size r) (hbody : Placed steps base (body base (base + size)))
    (hstep : steps[base + size]? = some (.choose greedy base next))
    (hw : Way steps n base s last t) (hl : last < base ∨ base + (size + 1) ≤ last) :
    ∃ j u m, Iterates r (j + 1) s u ∧ m < n ∧ Way steps m next u last t := by
  induction n using Nat.strongRecOn generalizing s with
  | ind n ih =>
    obtain ⟨u, m, hr, hm, hu⟩ := h hbody hw (by omega)
    obtain ⟨l, place, v, hlm, hg, hv⟩ := hu.leave (by omega)
    obtain ⟨hplace, hvu⟩ := hg.of_choose hstep
    subst hvu
    rcases hplace with hplace | hplace
    · rw [hplace] at hv
      obtain ⟨j, x, i, hi, hil, hx⟩ := ih l (by omega) hv
      exact ⟨j + 1, x, i, ⟨v, hr, hi⟩, by omega, hx⟩
    · rw [hplace] at hv
      exact ⟨0, v, l, ⟨v, hr, rfl⟩, by omega, hv⟩

/-- Any number of matches of what takes a character, so that the choice comes first. -/
theorem ring_sound (h : Sound steps body size r)
    (hstep : steps[base]? = some (.choose greedy (base + 1) next))
    (hbody : Placed steps (base + 1) (body (base + 1) base))
    (hw : Way steps n base s last t) (hl : last < base ∨ base + (size + 1) ≤ last) :
    ∃ j u m, Iterates r j s u ∧ m < n ∧ Way steps m next u last t := by
  induction n using Nat.strongRecOn generalizing s with
  | ind n ih =>
    obtain ⟨l, place, v, hlm, hg, hv⟩ := hw.leave (by omega)
    obtain ⟨hplace, hvs⟩ := hg.of_choose hstep
    subst hvs
    rcases hplace with hplace | hplace
    · rw [hplace] at hv
      obtain ⟨u, m, hr, hm, hu⟩ := h hbody hv (by omega)
      obtain ⟨j, x, i, hi, hil, hx⟩ := ih m (by omega) hu
      exact ⟨j + 1, x, i, ⟨u, hr, hi⟩, by omega, hx⟩
    · rw [hplace] at hv
      exact ⟨0, v, l, rfl, hlm, hv⟩

/-- Copies and then a loop. -/
theorem copiesLoop_sound (hlen : ∀ b e, (body b e).length = size) (h : Sound steps body size r)
    (hp : Placed steps base (copies body size k base (base + k * size)))
    (hbody : Placed steps (base + k * size) (body (base + k * size) (base + k * size + size)))
    (hback : steps[base + k * size + size]? = some (.choose greedy (base + k * size) next))
    (hw : Way steps n base s last t) (hl : last < base ∨ base + (k * size + (size + 1)) ≤ last) :
    ∃ j u m, Iterates r (k + (j + 1)) s u ∧ m < n ∧ Way steps m next u last t := by
  rw [← entry_eq k base size] at hw
  obtain ⟨u, m, hu, hm, hw⟩ := copies_sound hlen h hp hw (by omega)
  obtain ⟨j, v, l, hv, hlm, hw⟩ := loop_sound h hbody hback hw (by omega)
  exact ⟨j, v, l, iterates_add.2 ⟨u, hu, hv⟩, by omega, hw⟩

/-- Copies and then optional matches. -/
theorem copiesOptions_sound (hlen : ∀ b e, (body b e).length = size)
    (h : Sound steps body size r) {lo hi : Nat} (h0 : ¬ (lo = 0 ∧ hi = 0))
    (hp : Placed steps base
      (copies body size lo base (if hi ≤ lo then next else base + lo * size)))
    (hoptions : Placed steps (base + lo * size)
      (options greedy body size (hi - lo) (base + lo * size) next))
    (hw : Way steps n base s last t)
    (hl : last < base ∨ base + (lo * size + (hi - lo) * (size + 1)) ≤ last) :
    ∃ j u m, j ≤ hi - lo ∧ Iterates r (lo + j) s u ∧ m < n ∧ Way steps m next u last t := by
  rw [← entry_options_eq h0 base size next] at hw
  obtain ⟨u, m, hu, hm, hw⟩ := copies_sound hlen h hp hw (by omega)
  simp only [← Nat.sub_eq_zero_iff_le] at hw
  obtain ⟨j, v, l, hj, hv, hlm, hw⟩ := options_sound hlen h hoptions hw (by omega)
  exact ⟨j, v, l, hj, iterates_add.2 ⟨u, hu, hv⟩, by omega, hw⟩

theorem textCode_sound {cs : List Char} {base : Nat}
    (hp : Placed steps base (textCode base next cs)) (hw : Way steps n base s last t)
    (hl : last < base ∨ base + max cs.length 1 ≤ last) :
    ∃ u m, (text cs).Catches s u ∧ m < n ∧ Way steps m next u last t := by
  induction cs generalizing base n s with
  | nil =>
    obtain ⟨m, place, v, hm, hg, hv⟩ := hw.leave (by omega)
    obtain ⟨rfl, rfl⟩ := hg.of_skip hp.1
    exact ⟨v, m, ⟨v.spot, rfl, rfl⟩, hm, hv⟩
  | cons c cs ih =>
    rw [List.length_cons] at hl
    have hstep : ∃ place, steps[base]? = some (.take (.only c) place) := by
      cases cs with
      | nil => exact ⟨_, hp.1⟩
      | cons d ds => exact ⟨_, hp.1⟩
    obtain ⟨place', hstep⟩ := hstep
    obtain ⟨m, place, v, hm, hg, hv⟩ := hw.leave (by omega)
    obtain ⟨rfl, d, x, hd, hc, rfl⟩ := hg.of_take hstep
    obtain rfl : d = c := by simpa using hc
    cases cs with
    | nil =>
      cases hstep.symm.trans hp.1
      exact ⟨_, m, ⟨x, hd, rfl⟩, hm, hv⟩
    | cons e es =>
      cases hstep.symm.trans hp.1
      rw [List.length_cons] at hl
      obtain ⟨u, l, ⟨y, hy, rfl⟩, hlm, hw⟩ := ih hp.2 hv (by rw [List.length_cons]; omega)
      exact ⟨_, l, ⟨y, hd.append hy, rfl⟩, by omega, hw⟩

theorem times_sound {p : Pattern} (greedy : Bool) (lo : Nat) (hi : Option Nat)
    (ih : Sound steps p.code p.steps p.Catches) :
    Sound steps (times greedy lo hi p).code (times greedy lo hi p).steps
      (times greedy lo hi p).Catches := by
  have hlen := length_code p
  intro base next n last s t hp hw hl
  cases hi with
  | none =>
    cases lo with
    | zero =>
      rw [code] at hp
      rw [Pattern.steps] at hl
      split at hp
      · next hsome =>
        rw [if_pos hsome] at hl
        obtain ⟨j, u, m, hj, hm, hw⟩ := ring_sound ih hp.1 hp.2 hw hl
        exact ⟨u, m, ⟨j, Nat.zero_le j, by simp, hj⟩, hm, hw⟩
      · next hsome =>
        rw [if_neg hsome] at hl
        rw [List.cons_append, Placed, placed_append, length_code] at hp
        obtain ⟨hstep, hbody, hback, -⟩ := hp
        obtain ⟨m, place, v, hm, hg, hv⟩ := hw.leave (by omega)
        obtain ⟨hplace, rfl⟩ := hg.of_choose hstep
        rcases hplace with rfl | rfl
        · obtain ⟨j, u, l, hj, hlm, hw⟩ := loop_sound ih hbody hback hv (by omega)
          exact ⟨u, l, ⟨j + 1, Nat.zero_le _, by simp, hj⟩, by omega, hw⟩
        · exact ⟨v, m, ⟨0, Nat.le_refl 0, by simp, rfl⟩, hm, hv⟩
    | succ lo =>
      rw [code] at hp
      rw [Pattern.steps, Nat.succ_mul] at hl
      simp only [placed_append, List.length_append, length_copies hlen, length_code] at hp
      obtain ⟨⟨hcopies, hbody⟩, hback, -⟩ := hp
      rw [← Nat.add_assoc] at hback
      obtain ⟨j, u, m, hj, hm, hw⟩ := copiesLoop_sound hlen ih hcopies hbody hback hw (by omega)
      exact ⟨u, m, ⟨lo + (j + 1), by omega, by simp, hj⟩, hm, hw⟩
  | some hi =>
    rw [code] at hp
    rw [Pattern.steps] at hl
    by_cases h0 : lo = 0 ∧ hi = 0
    · obtain ⟨rfl, rfl⟩ := h0
      obtain ⟨m, place, v, hm, hg, hv⟩ := hw.leave (by omega)
      obtain ⟨rfl, rfl⟩ := hg.of_skip hp.1
      exact ⟨v, m, ⟨0, Nat.le_refl 0, fun _ _ => Nat.zero_le _, rfl⟩, hm, hv⟩
    · rw [if_neg (by simpa using h0)] at hp
      simp only [placed_append, length_copies hlen] at hp
      obtain ⟨j, u, m, hj, hu, hm, hw⟩ :=
        copiesOptions_sound hlen ih h0 hp.1 hp.2 hw (by omega)
      exact ⟨u, m, ⟨lo + j, by omega, fun k hk => by cases hk; omega, hu⟩, hm, hw⟩

/-- A way from the first step of a pattern that ends elsewhere begins with a match. -/
theorem code_sound (steps : Array Step) (p : Pattern) : Sound steps p.code p.steps p.Catches := by
  induction p with
  | empty =>
    intro base next n last s t hp hw hl
    obtain ⟨m, place, v, hm, hg, hv⟩ := hw.leave (by rw [Pattern.steps] at hl; omega)
    obtain ⟨rfl, rfl⟩ := hg.of_skip hp.1
    exact ⟨v, m, rfl, hm, hv⟩
  | text cs => exact textCode_sound
  | one set =>
    intro base next n last s t hp hw hl
    obtain ⟨m, place, v, hm, hg, hv⟩ := hw.leave (by rw [Pattern.steps] at hl; omega)
    obtain ⟨rfl, h⟩ := hg.of_take hp.1
    exact ⟨v, m, h, hm, hv⟩
  | anchor a =>
    intro base next n last s t hp hw hl
    obtain ⟨m, place, v, hm, hg, hv⟩ := hw.leave (by rw [Pattern.steps] at hl; omega)
    obtain ⟨rfl, ha, rfl⟩ := hg.of_check hp.1
    exact ⟨v, m, ⟨ha, rfl⟩, hm, hv⟩
  | seq p q ihp ihq =>
    intro base next n last s t hp hw hl
    rw [code, placed_append, length_code] at hp
    rw [Pattern.steps] at hl
    obtain ⟨u, m, hu, hm, hw⟩ := ihp hp.1 hw (by omega)
    obtain ⟨v, l, hv, hlm, hw⟩ := ihq hp.2 hw (by omega)
    exact ⟨v, l, ⟨u, hu, hv⟩, by omega, hw⟩
  | alt p q ihp ihq =>
    intro base next n last s t hp hw hl
    rw [code, List.cons_append, Placed, placed_append, length_code] at hp
    rw [Pattern.steps] at hl
    obtain ⟨hstep, hpp, hpq⟩ := hp
    obtain ⟨m, place, v, hm, hg, hv⟩ := hw.leave (by omega)
    obtain ⟨hplace, hvs⟩ := Moves.of_choose (show steps[base]? = some (.choose true _ _) from hstep) hg
    subst hvs
    rcases hplace with hplace | hplace
    · rw [hplace] at hv
      obtain ⟨u, l, hu, hlm, hw⟩ := ihp hpp hv (by omega)
      exact ⟨u, l, .inl hu, by omega, hw⟩
    · rw [hplace] at hv
      obtain ⟨u, l, hu, hlm, hw⟩ := ihq hpq hv (by omega)
      exact ⟨u, l, .inr hu, by omega, hw⟩
  | group number p ih =>
    intro base next n last s t hp hw hl
    rw [code, List.cons_append, Placed, placed_append, length_code] at hp
    rw [Pattern.steps] at hl
    obtain ⟨hopen, hbody, hclose, -⟩ := hp
    obtain ⟨m, place, v, hm, hg, hv⟩ := hw.leave (by omega)
    obtain ⟨rfl, rfl⟩ := hg.of_opening hopen
    obtain ⟨u, l, hu, hlm, hx⟩ := ih hbody hv (by omega)
    obtain ⟨i, place, x, hi, hg, hy⟩ := hx.leave (by omega)
    obtain ⟨rfl, rfl⟩ := hg.of_closing hclose
    exact ⟨_, i, ⟨u, hu, rfl⟩, by omega, hy⟩
  | times greedy lo hi p ih => exact times_sound greedy lo hi ih

end

/-! ### Matches are ways -/

/-- Behind every match there is a way that leads out. -/
def Complete (steps : Array Step) (body : Nat → Nat → List Step) (r : Spot → Spot → Prop) : Prop :=
  ∀ {base next : Nat} {s t : Spot}, Placed steps base (body base next) → r s t →
    Reach steps base s next t

section
variable {body : Nat → Nat → List Step} {size k base : Nat} {greedy : Bool} {s t : Spot}
  {r : Spot → Spot → Prop}

/-- Some matches one after the other. -/
theorem copies_complete (hlen : ∀ b e, (body b e).length = size) (h : Complete steps body r)
    (hp : Placed steps base (copies body size k base next)) (hr : Iterates r k s t) :
    Reach steps (if k = 0 then next else base) s next t := by
  induction k generalizing base s with
  | zero =>
    obtain rfl : t = s := hr
    exact .rfl next t
  | succ k ih =>
    rw [copies_succ, placed_append, hlen] at hp
    obtain ⟨u, hu, hr⟩ := hr
    exact (h hp.1 hu).trans (ih hp.2 hr)

/-- No more than some matches one after the other. -/
theorem options_complete (hlen : ∀ b e, (body b e).length = size) (h : Complete steps body r)
    (hp : Placed steps base (options greedy body size k base next)) {j : Nat} (hj : j ≤ k)
    (hr : Iterates r j s t) : Reach steps (if k = 0 then next else base) s next t := by
  induction k generalizing base s j with
  | zero =>
    obtain rfl := Nat.le_zero.1 hj
    obtain rfl : t = s := hr
    exact .rfl next t
  | succ k ih =>
    rw [options_succ, List.cons_append, Placed, placed_append, hlen] at hp
    obtain ⟨hstep, hbody, hmore⟩ := hp
    rw [Nat.add_assoc, Nat.add_comm 1] at hmore
    cases j with
    | zero =>
      obtain rfl : t = s := hr
      exact .go (.chooseSecond hstep) (.rfl next t)
    | succ j =>
      obtain ⟨u, hu, hr⟩ := hr
      exact .go (.chooseFirst hstep) ((h hbody hu).trans (ih hmore (Nat.le_of_succ_le_succ hj) hr))

/-- One match or more. -/
theorem loop_complete (h : Complete steps body r)
    (hbody : Placed steps base (body base (base + size)))
    (hstep : steps[base + size]? = some (.choose greedy base next)) {j : Nat}
    (hr : Iterates r (j + 1) s t) : Reach steps base s next t := by
  induction j generalizing s with
  | zero =>
    obtain ⟨u, hu, htu⟩ := hr
    obtain rfl : t = u := htu
    exact (h hbody hu).trans (.go (.chooseSecond hstep) (.rfl next t))
  | succ j ih =>
    obtain ⟨u, hu, hr⟩ := hr
    exact (h hbody hu).trans (.go (.chooseFirst hstep) (ih hr))

/-- Any number of matches of what takes a character, so that the choice comes first. -/
theorem ring_complete (h : Complete steps body r)
    (hstep : steps[base]? = some (.choose greedy (base + 1) next))
    (hbody : Placed steps (base + 1) (body (base + 1) base)) {j : Nat} (hr : Iterates r j s t) :
    Reach steps base s next t := by
  induction j generalizing s with
  | zero =>
    obtain rfl : t = s := hr
    exact .go (.chooseSecond hstep) (.rfl next t)
  | succ j ih =>
    obtain ⟨u, hu, hr⟩ := hr
    exact .go (.chooseFirst hstep) ((h hbody hu).trans (ih hr))

/-- Copies and then a loop. -/
theorem copiesLoop_complete (hlen : ∀ b e, (body b e).length = size) (h : Complete steps body r)
    (hp : Placed steps base (copies body size k base (base + k * size)))
    (hbody : Placed steps (base + k * size) (body (base + k * size) (base + k * size + size)))
    (hback : steps[base + k * size + size]? = some (.choose greedy (base + k * size) next))
    {j : Nat} (hr : Iterates r (k + (j + 1)) s t) : Reach steps base s next t := by
  obtain ⟨u, hu, ht⟩ := iterates_add.1 hr
  have hfirst := copies_complete hlen h hp hu
  rw [entry_eq] at hfirst
  exact hfirst.trans (loop_complete h hbody hback ht)

/-- Copies and then optional matches. -/
theorem copiesOptions_complete (hlen : ∀ b e, (body b e).length = size)
    (h : Complete steps body r) {lo hi : Nat} (h0 : ¬ (lo = 0 ∧ hi = 0))
    (hp : Placed steps base
      (copies body size lo base (if hi ≤ lo then next else base + lo * size)))
    (hoptions : Placed steps (base + lo * size)
      (options greedy body size (hi - lo) (base + lo * size) next))
    {j : Nat} (hj : j ≤ hi - lo) (hr : Iterates r (lo + j) s t) : Reach steps base s next t := by
  obtain ⟨u, hu, ht⟩ := iterates_add.1 hr
  have hfirst := copies_complete hlen h hp hu
  rw [entry_options_eq h0] at hfirst
  simp only [← Nat.sub_eq_zero_iff_le] at hfirst
  exact hfirst.trans (options_complete hlen h hoptions hj ht)

theorem textCode_complete {cs : List Char} {base : Nat}
    (hp : Placed steps base (textCode base next cs)) (h : s.Reads cs t) :
    Reach steps base s next t := by
  induction cs generalizing base s with
  | nil =>
    obtain rfl : t = s := h
    exact .go (.skip hp.1) (.rfl next t)
  | cons c cs ih =>
    obtain ⟨rest, hr, h⟩ := h
    have hc : s.Reads [c] ⟨some c, s.index + 1, rest⟩ := ⟨rest, hr, rfl⟩
    cases cs with
    | nil =>
      obtain rfl : t = _ := h
      exact .go (.take hp.1 hc (by simp)) (.rfl next _)
    | cons d ds => exact .go (.take hp.1 hc (by simp)) (ih hp.2 h)

theorem times_complete {p : Pattern} (greedy : Bool) (lo : Nat) (hi : Option Nat)
    (ih : Complete steps p.code p.Takes) :
    Complete steps (times greedy lo hi p).code (times greedy lo hi p).Takes := by
  have hlen := length_code p
  intro base next s t hp h
  obtain ⟨n, hlo, hhi, hn⟩ := h
  match lo, hi with
  | 0, none =>
    rw [code] at hp
    split at hp
    · exact ring_complete ih hp.1 hp.2 hn
    · rw [List.cons_append, Placed, placed_append, length_code] at hp
      obtain ⟨hstep, hbody, hback, -⟩ := hp
      cases n with
      | zero =>
        obtain rfl : t = s := hn
        exact .go (.chooseSecond hstep) (.rfl next t)
      | succ j => exact .go (.chooseFirst hstep) (loop_complete ih hbody hback hn)
  | lo + 1, none =>
    rw [code] at hp
    simp only [placed_append, List.length_append, length_copies hlen, length_code] at hp
    obtain ⟨⟨hcopies, hbody⟩, hback, -⟩ := hp
    rw [← Nat.add_assoc] at hback
    obtain ⟨j, rfl⟩ : ∃ j, n = lo + (j + 1) := ⟨n - (lo + 1), by omega⟩
    exact copiesLoop_complete hlen ih hcopies hbody hback hn
  | lo, some hi =>
    rw [code] at hp
    have hmost := hhi hi rfl
    by_cases h0 : lo = 0 ∧ hi = 0
    · obtain ⟨rfl, rfl⟩ := h0
      obtain rfl : n = 0 := by omega
      obtain rfl : t = s := hn
      exact .go (.skip hp.1) (.rfl next t)
    · rw [if_neg (by simpa using h0)] at hp
      simp only [placed_append, length_copies hlen] at hp
      obtain ⟨j, rfl⟩ : ∃ j, n = lo + j := ⟨n - lo, by omega⟩
      exact copiesOptions_complete hlen ih h0 hp.1 hp.2 (by omega) hn

/-- A match of a pattern leads from its first step to the next place. -/
theorem code_complete (steps : Array Step) (p : Pattern) : Complete steps p.code p.Takes := by
  induction p with
  | empty =>
    intro base next s t hp h
    obtain rfl : t = s := h
    exact .go (.skip hp.1) (.rfl next t)
  | text cs => exact textCode_complete
  | one set =>
    intro base next s t hp h
    obtain ⟨c, hc, hset⟩ := h
    exact .go (.take hp.1 hc hset) (.rfl next t)
  | anchor a =>
    intro base next s t hp h
    obtain ⟨ha, rfl⟩ := h
    exact .go (.check hp.1 ha) (.rfl next t)
  | seq p q ihp ihq =>
    intro base next s t hp h
    rw [code, placed_append, length_code] at hp
    obtain ⟨u, hu, ht⟩ := h
    exact (ihp hp.1 hu).trans (ihq hp.2 ht)
  | alt p q ihp ihq =>
    intro base next s t hp h
    rw [code, List.cons_append, Placed, placed_append, length_code] at hp
    obtain ⟨hstep, hpp, hpq⟩ := hp
    rcases h with h | h
    · exact .go (.first hstep) (ihp hpp h)
    · exact .go (.second hstep) (ihq hpq h)
  | group number p ih =>
    intro base next s t hp h
    rw [code, List.cons_append, Placed, placed_append, length_code] at hp
    obtain ⟨hopen, hbody, hclose, -⟩ := hp
    exact .go (.opening hopen) ((ih hbody h).trans (.go (.closing hclose) (.rfl next t)))
  | times greedy lo hi p ih => exact times_complete greedy lo hi ih

end

end Pattern

end CodeEditing
