import CodeEditing.Proofs.Document.Cells
import Mathlib.Data.List.Induction

/-! Brackets and their partners.

The search goes over cells and keeps how many brackets are open. It ends at the first cell that
balances those before it (`seekPartner_eq_some_iff`), which makes a pair with the bracket the search
began at (`Pairs`). Of two pairs with an end in common the longer one could have ended, or begun, inside
(`Pairs.exists_before`, `Pairs.exists_behind`), because where brackets change one by one every balance on
the way is met (`exists_balanced`). So the first partner of an opening bracket has it as its last one,
and the two searches are inverse to each other (`findPartner_pairs`). -/
namespace CodeEditing.Document

/-! ### Brackets in balance -/

/-- How often a character comes up. -/
def timesOf (c : Char) (cells : List Cell) : Nat := (cells.map Cell.char).count c

@[simp] theorem timesOf_nil (c : Char) : timesOf c [] = 0 := rfl

@[simp] theorem timesOf_cons (c : Char) (x : Cell) (cells : List Cell) :
    timesOf c (x :: cells) = timesOf c cells + if x.char = c then 1 else 0 := by
  rw [timesOf, List.map_cons, List.count_cons]
  simp [timesOf]

@[simp] theorem timesOf_append (c : Char) (a b : List Cell) :
    timesOf c (a ++ b) = timesOf c a + timesOf c b := by
  rw [timesOf, List.map_append, List.count_append]
  rfl

@[simp] theorem timesOf_reverse (c : Char) (cells : List Cell) :
    timesOf c cells.reverse = timesOf c cells := by
  rw [timesOf, List.map_reverse, List.count_reverse]
  rfl

/-- Where more of one kind come up than of another, one of them stands behind as many of either. -/
theorem exists_balanced {a b : Char} {cells : List Cell} (h : timesOf a cells < timesOf b cells) :
    ∃ front p back, cells = front ++ ⟨p, b⟩ :: back ∧ timesOf a front = timesOf b front := by
  induction cells using List.reverseRecOn with
  | nil => exact absurd h (Nat.lt_irrefl _)
  | append_singleton cells x ih =>
    by_cases hlt : timesOf a cells < timesOf b cells
    · obtain ⟨front, p, back, rfl, hlevel⟩ := ih hlt
      exact ⟨front, p, back ++ [x], by simp, hlevel⟩
    · -- the last one makes the difference
      simp only [timesOf_append, timesOf_cons, timesOf_nil] at h
      by_cases hx : x.char = b
      · subst hx
        rw [if_pos rfl] at h
        exact ⟨cells, x.at_, [], rfl, by split at h <;> omega⟩
      · rw [if_neg hx] at h
        omega

/-! ### The first that balances -/

/-- A cell at which the brackets seen before it, with some that are open already, are in balance. -/
def Balances (same partner : Char) (depth : Nat) (cells : List Cell) (q : Position) : Prop :=
  ∃ front back, cells = front ++ ⟨q, partner⟩ :: back ∧
    timesOf same front + depth = timesOf partner front + 1

section
variable {same partner : Char} {depth : Nat} {x : Cell} {cells : List Cell} {q : Position}

theorem Balances.mem (h : Balances same partner depth cells q) : (⟨q, partner⟩ : Cell) ∈ cells := by
  obtain ⟨front, back, rfl, -⟩ := h
  exact List.mem_append_right _ List.mem_cons_self

theorem not_balances_nil : ¬Balances same partner depth [] q := fun h => nomatch h.mem

theorem balances_cons_iff : Balances same partner depth (x :: cells) q ↔
    (x = ⟨q, partner⟩ ∧ depth = 1) ∨ ∃ front back, cells = front ++ ⟨q, partner⟩ :: back ∧
      timesOf same (x :: front) + depth = timesOf partner (x :: front) + 1 := by
  constructor
  · rintro ⟨front, back, hcells, hlevel⟩
    cases front with
    | nil =>
      refine .inl ⟨(List.cons.inj hcells).1, ?_⟩
      simpa using hlevel
    | cons y front =>
      obtain ⟨rfl, rfl⟩ := List.cons.inj hcells
      exact .inr ⟨front, back, rfl, hlevel⟩
  · rintro (⟨rfl, rfl⟩ | ⟨front, back, rfl, hlevel⟩)
    · exact ⟨[], cells, rfl, rfl⟩
    · exact ⟨x :: front, back, rfl, hlevel⟩

/-- A cell that does not balance leaves as many open as it finds, one more or one less. -/
theorem balances_cons {left : Nat} (hx : ¬(x.char = partner ∧ depth = 1))
    (hleft : timesOf same [x] + depth = timesOf partner [x] + left) :
    Balances same partner depth (x :: cells) q ↔ Balances same partner left cells q := by
  have hcons : ∀ c front, timesOf c (x :: front) = timesOf c [x] + timesOf c front :=
    fun c front => timesOf_append c [x] front
  rw [balances_cons_iff]
  constructor
  · rintro (⟨rfl, hone⟩ | ⟨front, back, hcells, hlevel⟩)
    · exact absurd ⟨rfl, hone⟩ hx
    · refine ⟨front, back, hcells, ?_⟩
      rw [hcons, hcons partner] at hlevel
      omega
  · rintro ⟨front, back, hcells, hlevel⟩
    refine .inr ⟨front, back, hcells, ?_⟩
    rw [hcons, hcons partner]
    omega

/-- The search ends at a cell that balances, or goes on with as many open as there are then. -/
theorem seekPartner_cons (x : Cell) (cells : List Cell) (hne : same ≠ partner) (hd : 0 < depth) :
    (x.char = partner ∧ depth = 1 ∧ seekPartner same partner depth (x :: cells) = some x.at_) ∨
      ¬(x.char = partner ∧ depth = 1) ∧ ∃ left, 0 < left ∧
        timesOf same [x] + depth = timesOf partner [x] + left ∧
        seekPartner same partner depth (x :: cells) = seekPartner same partner left cells := by
  rw [seekPartner]
  simp only [timesOf_cons, timesOf_nil, Nat.zero_add]
  by_cases hsame : x.char = same
  · have hpartner : x.char ≠ partner := fun h => hne (hsame.symm.trans h)
    rw [if_pos hsame, if_pos hsame, if_neg hpartner]
    exact .inr ⟨fun h => hpartner h.1, depth + 1, Nat.succ_pos depth, by omega, rfl⟩
  · rw [if_neg hsame, if_neg hsame]
    by_cases hpartner : x.char = partner
    · rw [if_pos hpartner, if_pos hpartner]
      by_cases hone : depth ≤ 1
      · rw [if_pos hone]
        exact .inl ⟨hpartner, by omega, rfl⟩
      · rw [if_neg hone]
        exact .inr ⟨fun h => hone (Nat.le_of_eq h.2), depth - 1, by omega, by omega, rfl⟩
    · rw [if_neg hpartner, if_neg hpartner]
      exact .inr ⟨fun h => hpartner h.1, depth, hd, rfl, rfl⟩

/-- The search finds a cell that balances, and none that comes before it does; or none does. -/
theorem seekPartner_cases {R : Position → Position → Prop} (hne : same ≠ partner)
    (hs : cells.Pairwise fun x y => R x.at_ y.at_) (hd : 0 < depth) :
    (seekPartner same partner depth cells = none ∧ ∀ q, ¬Balances same partner depth cells q) ∨
      ∃ q, seekPartner same partner depth cells = some q ∧ Balances same partner depth cells q ∧
        ∀ r, Balances same partner depth cells r → r = q ∨ R q r := by
  induction cells generalizing depth with
  | nil => exact .inl ⟨rfl, fun q => not_balances_nil⟩
  | cons x cells ih =>
    obtain ⟨hbehind, hs⟩ := List.pairwise_cons.1 hs
    rcases seekPartner_cons x cells hne hd with
      ⟨rfl, rfl, hfound⟩ | ⟨hx, left, hpos, hleft, hon⟩
    · refine .inr ⟨x.at_, hfound, ⟨[], cells, rfl, rfl⟩, fun r hr => ?_⟩
      rcases List.mem_cons.1 hr.mem with hx | hmem
      · exact .inl (congrArg Cell.at_ hx)
      · exact .inr (hbehind _ hmem)
    · simp only [hon, balances_cons hx hleft]
      exact ih hs hpos

theorem seekPartner_eq_none_iff (hne : same ≠ partner) (hd : 0 < depth) :
    seekPartner same partner depth cells = none ↔ ∀ q, ¬Balances same partner depth cells q := by
  have hany : cells.Pairwise fun _ _ => True := List.pairwise_of_forall fun _ _ => trivial
  rcases seekPartner_cases (R := fun _ _ => True) hne hany hd with ⟨h, hnone⟩ | ⟨q, h, hq, -⟩
  · exact ⟨fun _ => hnone, fun _ => h⟩
  · rw [h]
    exact ⟨nofun, fun hnone => absurd hq (hnone q)⟩

/-- What is found is the first that balances, where cells come one after the other. -/
theorem seekPartner_eq_some_iff {R : Position → Position → Prop} (hne : same ≠ partner)
    (hs : cells.Pairwise fun x y => R x.at_ y.at_) (hasymm : ∀ {p q}, R p q → ¬R q p)
    (hd : 0 < depth) :
    seekPartner same partner depth cells = some q ↔ Balances same partner depth cells q ∧
      ∀ r, Balances same partner depth cells r → ¬R r q := by
  rcases seekPartner_cases hne hs hd with ⟨h, hnone⟩ | ⟨p, h, hp, hfirst⟩
  · rw [h]
    exact ⟨nofun, fun ⟨hq, _⟩ => absurd hq (hnone q)⟩
  · rw [h]
    constructor
    · rintro ⟨⟩
      refine ⟨hp, fun r hr hrp => ?_⟩
      rcases hfirst r hr with rfl | hpr
      · exact hasymm hrp hrp
      · exact hasymm hpr hrp
    · rintro ⟨hq, hleast⟩
      rcases hfirst q hq with rfl | hpq
      · rfl
      · exact absurd hpq (hleast p hp)

end

/-! ### Pairs -/

/-- Whether a cell is strictly between two positions. -/
def Cell.isBetween (p q : Position) (x : Cell) : Bool := p < x.at_ && x.at_ < q

/-- The cells strictly between two positions. -/
def cellsBetween (lines : List Line) (p q : Position) : List Cell :=
  (cellsFrom 0 lines).filter (Cell.isBetween p q)

/-- An opening and a closing bracket with as many opening as closing ones of their kind between them. -/
structure Pairs (lines : List Line) (o k : Char) (p q : Position) : Prop where
  opens : charAt? lines p = some o
  closes : charAt? lines q = some k
  lt : p < q
  level : timesOf o (cellsBetween lines p q) = timesOf k (cellsBetween lines p q)

theorem Cell.isBetween_iff {p q : Position} {x : Cell} :
    x.isBetween p q = true ↔ p < x.at_ ∧ x.at_ < q := by
  rw [isBetween, Bool.and_eq_true, decide_eq_true_iff, decide_eq_true_iff]

section
variable {lines : List Line} {x y : Cell} {a f b : List Cell}

/-- The cells between two are those that stand between them. -/
theorem cellsBetween_eq (h : cellsFrom 0 lines = a ++ x :: (f ++ y :: b)) :
    x.at_ < y.at_ ∧ cellsBetween lines x.at_ y.at_ = f := by
  have hsorted := pairwise_cellsFrom 0 lines
  rw [h] at hsorted
  obtain ⟨-, hsorted, ha⟩ := List.pairwise_append.1 hsorted
  obtain ⟨hx, hsorted⟩ := List.pairwise_cons.1 hsorted
  obtain ⟨-, hsorted, hf⟩ := List.pairwise_append.1 hsorted
  obtain ⟨hy, -⟩ := List.pairwise_cons.1 hsorted
  have hfront : a.filter (Cell.isBetween x.at_ y.at_) = [] := List.filter_eq_nil_iff.2 fun z hz hin =>
    Position.lt_asymm (Cell.isBetween_iff.1 hin).1 (ha z hz x List.mem_cons_self)
  have hmid : f.filter (Cell.isBetween x.at_ y.at_) = f := List.filter_eq_self.2 fun z hz =>
    Cell.isBetween_iff.2 ⟨hx z (List.mem_append_left _ hz), hf z hz y List.mem_cons_self⟩
  have hback : b.filter (Cell.isBetween x.at_ y.at_) = [] := List.filter_eq_nil_iff.2 fun z hz hin =>
    Position.lt_asymm (Cell.isBetween_iff.1 hin).2 (hy z hz)
  have hends : x.isBetween x.at_ y.at_ ≠ true ∧ y.isBetween x.at_ y.at_ ≠ true :=
    ⟨fun hin => Position.lt_irrefl _ (Cell.isBetween_iff.1 hin).1,
      fun hin => Position.lt_irrefl _ (Cell.isBetween_iff.1 hin).2⟩
  refine ⟨hx y (List.mem_append_right _ List.mem_cons_self), ?_⟩
  rw [cellsBetween, h, List.filter_append, hfront, List.filter_cons_of_neg hends.1,
    List.filter_append, hmid, List.filter_cons_of_neg hends.2, hback]
  simp

end

namespace Pairs
variable {lines : List Line} {o k : Char} {p q : Position}

/-- A pair in the cells of lines. -/
theorem split (h : Pairs lines o k p q) : ∃ a f b,
    cellsFrom 0 lines = a ++ ⟨p, o⟩ :: (f ++ ⟨q, k⟩ :: b) ∧ timesOf o f = timesOf k f := by
  obtain ⟨a, behind, hall⟩ := List.append_of_mem (mem_cellsFrom_iff (x := ⟨p, o⟩).2 h.opens)
  have hmem := mem_cellsFrom_iff (x := ⟨q, k⟩).2 h.closes
  have hsorted := pairwise_cellsFrom 0 lines
  rw [hall] at hmem hsorted
  have hbehind : (⟨q, k⟩ : Cell) ∈ behind := by
    rcases List.mem_append.1 hmem with hm | hm
    · exact absurd ((List.pairwise_append.1 hsorted).2.2 _ hm _ List.mem_cons_self)
        (Position.lt_asymm h.lt)
    · rcases List.mem_cons.1 hm with heq | hm
      · cases heq
        exact absurd h.lt (Position.lt_irrefl _)
      · exact hm
  obtain ⟨f, b, rfl⟩ := List.append_of_mem hbehind
  have hlevel := h.level
  rw [(cellsBetween_eq hall).2] at hlevel
  exact ⟨a, f, b, hall, hlevel⟩

theorem of_split {a f b : List Cell} (h : cellsFrom 0 lines = a ++ ⟨p, o⟩ :: (f ++ ⟨q, k⟩ :: b))
    (hlevel : timesOf o f = timesOf k f) : Pairs lines o k p q := by
  obtain ⟨hlt, hbetween⟩ := cellsBetween_eq h
  refine ⟨mem_cellsFrom_iff (x := ⟨p, o⟩).1 ?_, mem_cellsFrom_iff (x := ⟨q, k⟩).1 ?_, hlt, ?_⟩
  · simp [h]
  · simp [h]
  · rw [hbetween, hlevel]

end Pairs

/-! ### Partners -/

theorem closerOf?_cases {o k : Char} (h : closerOf? o = some k) :
    (o = '(' ∧ k = ')') ∨ (o = '[' ∧ k = ']') ∨ (o = '\x7b' ∧ k = '\x7d') := by
  unfold closerOf? at h
  split at h
  all_goals cases h
  all_goals decide

theorem openerOf?_eq_some_iff {o k : Char} : openerOf? k = some o ↔ closerOf? o = some k := by
  constructor
  · intro h
    unfold openerOf? at h
    split at h
    all_goals cases h
    all_goals rfl
  · intro h
    obtain ⟨rfl, rfl⟩ | ⟨rfl, rfl⟩ | ⟨rfl, rfl⟩ := closerOf?_cases h
    all_goals rfl

/-- Brackets of a kind are different, each takes one column, and one that closes opens none. -/
theorem bracket_facts {o k : Char} (h : closerOf? o = some k) :
    o ≠ k ∧ o.utf8Size = 1 ∧ k.utf8Size = 1 ∧ closerOf? k = none := by
  obtain ⟨rfl, rfl⟩ | ⟨rfl, rfl⟩ | ⟨rfl, rfl⟩ := closerOf?_cases h
  all_goals decide

section
variable {lines : List Line} {o k : Char} {p q : Position}

/-- Behind a bracket it is this bracket whose partner is looked for. -/
theorem findPartner_onward {c : Char} (hsize : c.utf8Size = 1) (hc : charAt? lines p = some c) :
    findPartner lines p.onward =
      if (closerOf? c).isSome then findCloser lines c p.onward
      else if (openerOf? c).isSome then findOpener lines c p.onward
      else none := by
  have hbefore := before_beside hc
  rw [hsize] at hbefore
  rw [findPartner, Position.onward]
  dsimp only
  rw [hbefore, List.getLast?_concat]

theorem findPartner_opener (hk : closerOf? o = some k) (ho : charAt? lines p = some o) :
    findPartner lines p.onward = seekPartner o k 1 (cellsBehind lines p.onward) := by
  rw [findPartner_onward (bracket_facts hk).2.1 ho]
  simp [hk, findCloser]

theorem findPartner_closer (hk : closerOf? o = some k) (hc : charAt? lines q = some k) :
    findPartner lines q.onward = seekPartner k o 1 (cellsBefore lines q) := by
  rw [findPartner_onward (bracket_facts hk).2.2.1 hc]
  simp [(bracket_facts hk).2.2.2, openerOf?_eq_some_iff.2 hk, findOpener, Position.onward]

theorem balances_behind_iff (hk : closerOf? o = some k) (ho : charAt? lines p = some o) :
    Balances o k 1 (cellsBehind lines p.onward) q ↔ Pairs lines o k p q := by
  have hall := cells_at ho
  rw [(bracket_facts hk).2.1] at hall
  constructor
  · rintro ⟨f, b, hcells, hlevel⟩
    rw [Position.onward] at hcells
    rw [hcells] at hall
    exact .of_split hall (by omega)
  · intro h
    obtain ⟨a, f, b, hsplit, hlevel⟩ := h.split
    have hbehind := (cells_split hsplit).2
    rw [(bracket_facts hk).2.1] at hbehind
    exact ⟨f, b, hbehind, by omega⟩

theorem balances_before_iff (hc : charAt? lines q = some k) :
    Balances k o 1 (cellsBefore lines q) p ↔ Pairs lines o k p q := by
  have hall := cells_at hc
  constructor
  · rintro ⟨f, b, hcells, hlevel⟩
    rw [hcells, List.reverse_append, List.reverse_cons, List.append_assoc, List.append_assoc] at hall
    exact .of_split hall (by simp; omega)
  · intro h
    obtain ⟨a, f, b, hsplit, hlevel⟩ := h.split
    rw [← List.cons_append, ← List.append_assoc] at hsplit
    refine ⟨f.reverse, a.reverse, ?_, by simp; omega⟩
    rw [(cells_split hsplit).1]
    simp

/-- The partner of an opening bracket is the first that makes a pair with it. -/
theorem findPartner_opener_iff (hk : closerOf? o = some k) (ho : charAt? lines p = some o) :
    (findPartner lines p.onward = some q ↔
      Pairs lines o k p q ∧ ∀ r, Pairs lines o k p r → ¬r < q) ∧
    (findPartner lines p.onward = none ↔ ∀ r, ¬Pairs lines o k p r) := by
  have hne := (bracket_facts hk).1
  have hsorted := pairwise_cellsFrom 0 lines
  rw [cells_at ho, (bracket_facts hk).2.1] at hsorted
  have hbehind := (List.pairwise_cons.1 (List.pairwise_append.1 hsorted).2.1).2
  simp only [findPartner_opener hk ho, ← balances_behind_iff hk ho]
  exact ⟨seekPartner_eq_some_iff hne hbehind Position.lt_asymm Nat.one_pos,
    seekPartner_eq_none_iff hne Nat.one_pos⟩

/-- The partner of a closing bracket is the last that makes a pair with it. -/
theorem findPartner_closer_iff (hk : closerOf? o = some k) (hc : charAt? lines q = some k) :
    (findPartner lines q.onward = some p ↔
      Pairs lines o k p q ∧ ∀ r, Pairs lines o k r q → ¬p < r) ∧
    (findPartner lines q.onward = none ↔ ∀ r, ¬Pairs lines o k r q) := by
  have hne := (bracket_facts hk).1.symm
  have hsorted := pairwise_cellsFrom 0 lines
  rw [cells_at hc] at hsorted
  have hbefore := List.pairwise_reverse.1 (List.pairwise_append.1 hsorted).1
  simp only [findPartner_closer hk hc, ← balances_before_iff hc]
  exact ⟨seekPartner_eq_some_iff (R := fun p q => q < p) hne hbefore
    (fun h => Position.lt_asymm h) Nat.one_pos, seekPartner_eq_none_iff hne Nat.one_pos⟩

/-! ### Pairs in one another -/

namespace Pairs
variable {r : Position}

/-- A pair is cut in two by a bracket of its kind between its ends. -/
theorem split_at (h : Pairs lines o k p q) {x : Cell} (hx : charAt? lines x.at_ = some x.char)
    (hp : p < x.at_) (hq : x.at_ < q) : ∃ a f g b,
      cellsFrom 0 lines = a ++ ⟨p, o⟩ :: ((f ++ x :: g) ++ ⟨q, k⟩ :: b) ∧
      timesOf o (f ++ x :: g) = timesOf k (f ++ x :: g) := by
  obtain ⟨a, f, b, hsplit, hlevel⟩ := h.split
  have hmem : x ∈ cellsBetween lines p q :=
    List.mem_filter.2 ⟨mem_cellsFrom_iff.2 hx, Cell.isBetween_iff.2 ⟨hp, hq⟩⟩
  rw [(cellsBetween_eq hsplit).2] at hmem
  obtain ⟨f, g, rfl⟩ := List.append_of_mem hmem
  exact ⟨a, f, g, b, hsplit, hlevel⟩

/-- Of two pairs with one end the longer one could have ended before. -/
theorem exists_before (hne : o ≠ k) (h : Pairs lines o k p q) (hr : Pairs lines o k r q)
    (hpr : p < r) : ∃ s, Pairs lines o k p s ∧ s < q := by
  obtain ⟨a, f, g, b, hsplit, hlevel⟩ := h.split_at (x := ⟨r, o⟩) hr.opens hpr hr.lt
  have hinner := hr.level
  have hagain : cellsFrom 0 lines = (a ++ ⟨p, o⟩ :: f) ++ ⟨r, o⟩ :: (g ++ ⟨q, k⟩ :: b) := by
    simp [hsplit]
  rw [(cellsBetween_eq hagain).2] at hinner
  simp only [timesOf_append, timesOf_cons, if_neg hne, if_true] at hlevel
  obtain ⟨front, s, back, rfl, hfront⟩ :=
    exists_balanced (show timesOf o f < timesOf k f by omega)
  have hpair : cellsFrom 0 lines =
      a ++ ⟨p, o⟩ :: (front ++ ⟨s, k⟩ :: (back ++ ⟨r, o⟩ :: (g ++ ⟨q, k⟩ :: b))) := by simp [hsplit]
  have hends : cellsFrom 0 lines =
      (a ++ ⟨p, o⟩ :: front) ++ ⟨s, k⟩ :: ((back ++ ⟨r, o⟩ :: g) ++ ⟨q, k⟩ :: b) := by simp [hsplit]
  exact ⟨s, .of_split hpair hfront, (cellsBetween_eq hends).1⟩

/-- Of two pairs with one beginning the longer one could have begun later. -/
theorem exists_behind (hne : o ≠ k) (h : Pairs lines o k p q) (hr : Pairs lines o k p r)
    (hrq : r < q) : ∃ s, Pairs lines o k s q ∧ p < s := by
  obtain ⟨a, f, g, b, hsplit, hlevel⟩ := h.split_at (x := ⟨r, k⟩) hr.closes hr.lt hrq
  have hinner := hr.level
  have hagain : cellsFrom 0 lines = a ++ ⟨p, o⟩ :: (f ++ ⟨r, k⟩ :: (g ++ ⟨q, k⟩ :: b)) := by
    simp [hsplit]
  rw [(cellsBetween_eq hagain).2] at hinner
  simp only [timesOf_append, timesOf_cons, if_neg hne.symm, if_true] at hlevel
  have hmore : timesOf k g.reverse < timesOf o g.reverse := by
    simp only [timesOf_reverse]
    omega
  obtain ⟨front, s, back, hg, hfront⟩ := exists_balanced hmore
  obtain rfl : g = back.reverse ++ ⟨s, o⟩ :: front.reverse := by
    rw [← List.reverse_reverse g, hg]
    simp
  have hpair : cellsFrom 0 lines = (a ++ ⟨p, o⟩ :: (f ++ ⟨r, k⟩ :: back.reverse)) ++
      ⟨s, o⟩ :: (front.reverse ++ ⟨q, k⟩ :: b) := by simp [hsplit]
  have hends : cellsFrom 0 lines = a ++ ⟨p, o⟩ :: ((f ++ ⟨r, k⟩ :: back.reverse) ++
      ⟨s, o⟩ :: (front.reverse ++ ⟨q, k⟩ :: b)) := by simp [hsplit]
  exact ⟨s, .of_split hpair (by simpa using hfront.symm), (cellsBetween_eq hends).1⟩

end Pairs

/-- The partner of an opening bracket closes it, and has it as its own partner. -/
theorem findPartner_of_opener (hk : closerOf? o = some k) (ho : charAt? lines p = some o)
    (h : findPartner lines p.onward = some q) :
    charAt? lines q = some k ∧ findPartner lines q.onward = some p := by
  obtain ⟨hpair, hfirst⟩ := (findPartner_opener_iff hk ho).1.1 h
  refine ⟨hpair.closes, (findPartner_closer_iff hk hpair.closes).1.2 ⟨hpair, fun r hr hpr => ?_⟩⟩
  obtain ⟨s, hs, hsq⟩ := hpair.exists_before (bracket_facts hk).1 hr hpr
  exact hfirst s hs hsq

/-- The partner of a closing bracket opens it, and has it as its own partner. -/
theorem findPartner_of_closer (hk : closerOf? o = some k) (hc : charAt? lines q = some k)
    (h : findPartner lines q.onward = some p) :
    charAt? lines p = some o ∧ findPartner lines p.onward = some q := by
  obtain ⟨hpair, hlast⟩ := (findPartner_closer_iff hk hc).1.1 h
  refine ⟨hpair.opens, (findPartner_opener_iff hk hpair.opens).1.2 ⟨hpair, fun r hr hrq => ?_⟩⟩
  obtain ⟨s, hs, hps⟩ := hpair.exists_behind (bracket_facts hk).1 hr hrq
  exact hlast s hs hps

end

/-- **Brackets and their partners.** In any lines, the partner of an opening bracket is the first
closing one of its kind behind it with as many opening as closing ones between, that of a closing
bracket is the last opening one before it, and there is none if no bracket is like that. The partner of
a partner is the bracket itself. -/
theorem findPartner_pairs (lines : List Line) :
    (∀ p o k, charAt? lines p = some o → closerOf? o = some k →
      (∀ q, findPartner lines p.onward = some q ↔
        Pairs lines o k p q ∧ ∀ r, Pairs lines o k p r → ¬r < q) ∧
      (findPartner lines p.onward = none ↔ ∀ q, ¬Pairs lines o k p q)) ∧
    (∀ q k o, charAt? lines q = some k → openerOf? k = some o →
      (∀ p, findPartner lines q.onward = some p ↔
        Pairs lines o k p q ∧ ∀ r, Pairs lines o k r q → ¬p < r) ∧
      (findPartner lines q.onward = none ↔ ∀ p, ¬Pairs lines o k p q)) ∧
    ∀ p c, charAt? lines p = some c → (closerOf? c).isSome ∨ (openerOf? c).isSome →
      ∀ q, findPartner lines p.onward = some q → findPartner lines q.onward = some p := by
  refine ⟨fun p o k ho hk => ?_, fun q k o hc ho => ?_, fun p c hc hbracket q hq => ?_⟩
  · exact ⟨fun q => (findPartner_opener_iff hk ho (q := q)).1, (findPartner_opener_iff hk ho (q := p)).2⟩
  · have hk := openerOf?_eq_some_iff.1 ho
    exact ⟨fun p => (findPartner_closer_iff hk hc (p := p)).1, (findPartner_closer_iff hk hc (p := q)).2⟩
  · rcases hbracket with hsome | hsome
    · obtain ⟨k, hk⟩ := Option.isSome_iff_exists.1 hsome
      exact (findPartner_of_opener hk hc hq).2
    · obtain ⟨o, ho⟩ := Option.isSome_iff_exists.1 hsome
      exact (findPartner_of_closer (openerOf?_eq_some_iff.1 ho) hc hq).2

/-- Brackets over three rows, inside others, with wide characters between and one that nothing opens. -/
theorem findPartner_pairs_nested :
    let lines := ["é(a[".toList, "()é".toList, "])".toList, "\x7d".toList]
    (charAt? lines ⟨0, 2⟩ = some '(' ∧ findPartner lines ⟨0, 3⟩ = some ⟨2, 1⟩ ∧
      Pairs lines '(' ')' ⟨0, 2⟩ ⟨2, 1⟩ ∧ ∀ r, Pairs lines '(' ')' ⟨0, 2⟩ r → ¬r < ⟨2, 1⟩) ∧
    findPartner lines ⟨2, 2⟩ = some ⟨0, 2⟩ ∧
    (charAt? lines ⟨3, 0⟩ = some '\x7d' ∧ ∀ p, ¬Pairs lines '\x7b' '\x7d' p ⟨3, 0⟩) := by
  intro lines
  obtain ⟨hopening, hclosing, hback⟩ := findPartner_pairs lines
  have hopen : charAt? lines ⟨0, 2⟩ = some '(' := by decide
  have hstray : charAt? lines ⟨3, 0⟩ = some '\x7d' := by decide
  have hfound : findPartner lines ⟨0, 3⟩ = some ⟨2, 1⟩ := by decide
  exact ⟨⟨hopen, hfound, ((hopening ⟨0, 2⟩ '(' ')' hopen rfl).1 ⟨2, 1⟩).1 hfound⟩,
    hback ⟨0, 2⟩ '(' hopen (.inl rfl) ⟨2, 1⟩ hfound,
    hstray, (hclosing ⟨3, 0⟩ '\x7d' '\x7b' hstray rfl).2.1 (by decide)⟩

end CodeEditing.Document
