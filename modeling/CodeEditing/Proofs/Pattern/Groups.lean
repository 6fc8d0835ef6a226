import CodeEditing.Pattern.Matching
import CodeEditing.Proofs.Pattern.Takes

/-! What the groups of a pattern take.

A `Trail` is a place of a text with the groups that have been opened and closed up to there.
`Pattern.Catches` says from which trail to which a match of a pattern may lead, by the parts of the
pattern. Without the groups this is what the pattern takes (`Catches.takes`); groups that were open
before stay open (`Catches.opened_eq`), and a part without groups leaves all as they are
(`Catches.of_groupless`). -/
namespace CodeEditing

/-! ### Trails -/

/-- A place of a text, where the groups open there were opened, and the groups closed before it, both
latest first. -/
structure Trail where
  spot : Spot
  opened : List Nat
  captures : List Capture
  deriving Repr, DecidableEq

namespace Trail

/-- No group has been opened. -/
def start (s : Spot) : Trail := ⟨s, [], []⟩

/-- The same groups at another place. -/
def moveTo (t : Trail) (s : Spot) : Trail := {t with spot := s}

/-- Opens a group. -/
def openGroup (t : Trail) : Trail := {t with opened := t.spot.index :: t.opened}

/-- Closes the group opened last. -/
def closeGroup (t : Trail) (number : Nat) : Trail :=
  match t.opened with
  | [] => t
  | start :: opened =>
    {t with opened, captures := ⟨number, start, t.spot.index⟩ :: t.captures}

theorem closeGroup_spot (t : Trail) (number : Nat) : (t.closeGroup number).spot = t.spot := by
  unfold closeGroup
  split <;> rfl

end Trail

/-! ### Matches of a pattern -/

namespace Pattern

/-- A match of the pattern may lead from one trail to the other. -/
def Catches : Pattern → Trail → Trail → Prop
  | empty, s, t => t = s
  | text cs, s, t => ∃ u, s.spot.Reads cs u ∧ t = s.moveTo u
  | one set, s, t => ∃ c u, s.spot.Reads [c] u ∧ set.contains c = true ∧ t = s.moveTo u
  | anchor a, s, t => a.holdsAt s.spot = true ∧ t = s
  | seq p q, s, t => ∃ u, p.Catches s u ∧ q.Catches u t
  | alt p q, s, t => p.Catches s t ∨ q.Catches s t
  | times _ lo hi p, s, t => ∃ n, lo ≤ n ∧ (∀ h ∈ hi, n ≤ max lo h) ∧ Iterates p.Catches n s t
  | group n p, s, t => ∃ u, p.Catches s.openGroup u ∧ t = u.closeGroup n

/-- Whether the pattern has no groups. -/
def groupless : Pattern → Bool
  | empty | text _ | one _ | anchor _ => true
  | seq p q | alt p q => p.groupless && q.groupless
  | times _ _ _ p => p.groupless
  | group _ _ => false

namespace Catches
variable {p : Pattern} {s t : Trail} {number : Nat}

theorem takes (h : p.Catches s t) : p.Takes s.spot t.spot := by
  induction p generalizing s t with
  | empty => exact congrArg Trail.spot h
  | text cs =>
    obtain ⟨u, hu, rfl⟩ := h
    exact hu
  | one set =>
    obtain ⟨c, u, hu, hc, rfl⟩ := h
    exact ⟨c, hu, hc⟩
  | anchor a =>
    obtain ⟨ha, rfl⟩ := h
    exact ⟨ha, rfl⟩
  | seq p q ihp ihq =>
    obtain ⟨u, hu, ht⟩ := h
    exact ⟨u.spot, ihp hu, ihq ht⟩
  | alt p q ihp ihq => exact h.imp ihp ihq
  | times greedy lo hi p ih =>
    obtain ⟨n, hlo, hhi, h⟩ := h
    exact ⟨n, hlo, hhi, h.map fun h => ih h⟩
  | group n p ih =>
    obtain ⟨u, hu, rfl⟩ := h
    rw [Trail.closeGroup_spot]
    show p.Takes s.openGroup.spot u.spot
    exact ih hu

theorem opened_eq (h : p.Catches s t) : t.opened = s.opened := by
  induction p generalizing s t with
  | empty => exact congrArg Trail.opened h
  | text cs =>
    obtain ⟨u, -, rfl⟩ := h
    rfl
  | one set =>
    obtain ⟨c, u, -, -, rfl⟩ := h
    rfl
  | anchor a => exact congrArg Trail.opened h.2
  | seq p q ihp ihq =>
    obtain ⟨u, hu, ht⟩ := h
    exact (ihq ht).trans (ihp hu)
  | alt p q ihp ihq => exact h.elim ihp ihq
  | times greedy lo hi p ih =>
    obtain ⟨n, -, -, h⟩ := h
    exact h.keeps Trail.opened fun h => ih h
  | group n p ih =>
    obtain ⟨u, hu, rfl⟩ := h
    rw [Trail.closeGroup, ih hu]
    rfl

/-- A group takes what lies between the place where it is opened and the one where it is closed. -/
theorem of_group (h : (group number p).Catches s t) : ∃ u, p.Catches s.openGroup u ∧
    t = ⟨u.spot, s.opened, ⟨number, s.spot.index, u.spot.index⟩ :: u.captures⟩ := by
  obtain ⟨u, hu, rfl⟩ := h
  refine ⟨u, hu, ?_⟩
  rw [Trail.closeGroup, hu.opened_eq]
  rfl

/-- A part without groups leaves the groups as they are. -/
theorem of_groupless (h : p.Catches s t) (hp : p.groupless = true) : t.captures = s.captures := by
  induction p generalizing s t with
  | empty => exact congrArg Trail.captures h
  | text cs =>
    obtain ⟨u, -, rfl⟩ := h
    rfl
  | one set =>
    obtain ⟨c, u, -, -, rfl⟩ := h
    rfl
  | anchor a => exact congrArg Trail.captures h.2
  | seq p q ihp ihq =>
    obtain ⟨hpg, hqg⟩ := Bool.and_eq_true_iff.1 hp
    obtain ⟨u, hu, ht⟩ := h
    exact (ihq ht hqg).trans (ihp hu hpg)
  | alt p q ihp ihq =>
    obtain ⟨hpg, hqg⟩ := Bool.and_eq_true_iff.1 hp
    exact h.elim (fun h => ihp h hpg) fun h => ihq h hqg
  | times greedy lo hi p ih =>
    obtain ⟨n, -, -, h⟩ := h
    exact h.keeps Trail.captures fun h => ih h hp
  | group n p ih => exact absurd hp nofun

end Catches

end Pattern

end CodeEditing
