import Mathlib.Data.List.Nodup

/-! Numbers that are given once.

Calls, the listeners of a document and subscribers each get the next number of a counter, which is not
given again. So the numbers in use are different and below the counter, and each stands for one
thing. -/
namespace CodeEditing.Worker

section Counter
variable {α : Type} {items : List α} {a : α}

/-- Whatever gets the next number has one of its own. -/
theorem nodup_map_concat (number : α → Nat) (hn : (items.map number).Nodup)
    (hb : ∀ b ∈ items, number b < number a) : ((items ++ [a]).map number).Nodup := by
  rw [List.map_append, List.map_singleton, ← List.concat_eq_append]
  refine hn.concat fun hmem => ?_
  obtain ⟨b, hmem, hnumber⟩ := List.mem_map.1 hmem
  exact absurd hnumber (Nat.ne_of_lt (hb b hmem))

theorem below_concat (number : α → Nat) (hb : ∀ b ∈ items, number b < number a) :
    ∀ b ∈ items ++ [a], number b < number a + 1 := by
  intro b hmem
  rcases List.mem_append.1 hmem with hmem | hmem
  · exact Nat.lt_succ_of_lt (hb b hmem)
  · exact List.mem_singleton.1 hmem ▸ Nat.lt_succ_self _

/-- Nothing else has the number of what is in use. -/
theorem split_of_nodup_map (number : α → Nat) (hn : (items.map number).Nodup) (ha : a ∈ items) :
    ∃ before behind, items = before ++ a :: behind ∧ (∀ b ∈ before, number b ≠ number a) ∧
      ∀ b ∈ behind, number b ≠ number a := by
  obtain ⟨before, behind, rfl⟩ := List.append_of_mem ha
  rw [List.map_append, List.map_cons] at hn
  obtain ⟨-, hbehind, hapart⟩ := List.nodup_append.1 hn
  refine ⟨before, behind, rfl, fun b hb => ?_, fun b hb he => ?_⟩
  · exact hapart _ (List.mem_map_of_mem hb) _ List.mem_cons_self
  · exact (List.nodup_cons.1 hbehind).1 (he ▸ List.mem_map_of_mem hb)

end Counter

section Pairs
variable {α β : Type}

theorem lookup_filter_ne [BEq α] [LawfulBEq α] [DecidableEq α] (pairs : List (α × β)) (key n : α) :
    (pairs.filter (·.1 != key)).lookup n = if n = key then none else pairs.lookup n := by
  induction pairs with
  | nil => simp
  | cons p pairs ih =>
    obtain ⟨k, b⟩ := p
    by_cases hk : k = key
    · rw [List.filter_cons_of_neg (by simp [hk]), ih, List.lookup_cons, hk]
      by_cases hn : n = key
      · simp [hn]
      · simp [hn, beq_eq_false_iff_ne.2 hn]
    · rw [List.filter_cons_of_pos (by simp [hk]), List.lookup_cons, List.lookup_cons, ih]
      by_cases hn : n = key
      · simp [hn, beq_eq_false_iff_ne.2 (Ne.symm hk)]
      · simp only [if_neg hn]

theorem filter_of_lookup_eq_none {pairs : List (Nat × β)} {n : Nat} (h : pairs.lookup n = none) :
    pairs.filter (·.1 != n) = pairs := by
  refine List.filter_eq_self.2 fun p hp => bne_iff_ne.2 fun he => ?_
  have := List.lookup_eq_none_iff.1 h p hp
  simp [he] at this

theorem lookup_of_mem {pairs : List (Nat × β)} (hn : (pairs.map Prod.fst).Nodup) {n : Nat} {b : β}
    (h : (n, b) ∈ pairs) : pairs.lookup n = some b := by
  obtain ⟨before, behind, hsplit, hbefore, -⟩ := split_of_nodup_map Prod.fst hn h
  exact List.lookup_eq_some_iff.2
    ⟨before, behind, hsplit, fun p hp => bne_iff_ne.2 (hbefore p hp).symm⟩

theorem mem_of_lookup {pairs : List (Nat × β)} {n : Nat} {b : β} (h : pairs.lookup n = some b) :
    (n, b) ∈ pairs := by
  obtain ⟨before, behind, rfl, -⟩ := List.lookup_eq_some_iff.1 h
  exact List.mem_append_right _ List.mem_cons_self

/-- What is taken out by its number is one thing. -/
theorem length_filter_ne {pairs : List (Nat × β)} (hn : (pairs.map Prod.fst).Nodup) {n : Nat} {b : β}
    (h : (n, b) ∈ pairs) : (pairs.filter (·.1 != n)).length + 1 = pairs.length := by
  have hmem : n ∈ pairs.map Prod.fst := List.mem_map_of_mem h
  have herase : (pairs.filter (·.1 != n)).map Prod.fst = (pairs.map Prod.fst).erase n := by
    rw [hn.erase_eq_filter, List.filter_map]
    rfl
  rw [← List.length_map Prod.fst, herase, List.length_erase_add_one hmem, List.length_map]

end Pairs

end CodeEditing.Worker
