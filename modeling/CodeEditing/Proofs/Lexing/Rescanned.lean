import CodeEditing.Proofs.Lexing.Seams

/-! What an update scans again.

An update begins at the first new row, goes over all rows up to the last new one, and beyond that row
only on to the first that was scanned from the state reached (`refill_further`). So the rows it leaves
are those it began with, outside of the range it gives, and rows scanned one after the other inside of
it (`rescanned`, `update_rescans`). `update_touches` says what this means row by row: nothing new is
left, nothing outside of the range is touched, and no row beyond the last new one is scanned without
need. -/
namespace CodeEditing.Lexing.LineCache

/-! ### Rows scanned one after the other -/

section
variable {t : Tokenizer} {last row i : Nat} {state : StateId} {cached : List (Option CachedRow)}
  {lines : List (List Char)} {line : List Char}

theorem getElem?_scanned (h : lines[i]? = some line) : (scanned t state lines)[i]? =
    some (some ⟨behind t state (lines.take i), t.tokenize (behind t state (lines.take i)) line⟩) := by
  induction lines generalizing state i with
  | nil => cases h
  | cons l lines ih =>
    cases i with
    | zero =>
      obtain rfl : l = line := Option.some.inj h
      rfl
    | succ i => exact ih h

/-- The state in which one of the rows ends is the one behind all up to it. -/
theorem endState_scanned (h : lines[i]? = some line) :
    (t.tokenize (behind t state (lines.take i)) line).endState =
      behind t state (lines.take (i + 1)) := by
  induction lines generalizing state i with
  | nil => cases h
  | cons l lines ih =>
    cases i with
    | zero =>
      obtain rfl : l = line := Option.some.inj h
      rfl
    | succ i => exact ih h

/-- Filling up goes on beyond `last` only where the next row was not scanned from the state
reached. -/
theorem refill_further {m : Nat} (hl : cached.length = lines.length) (hm : 0 < m)
    (hstop : row + m < (refill t last row state cached lines).2) (hlast : last < row + m) :
    startsFrom (behind t state (lines.take m)) (cached.drop m) = false := by
  induction lines generalizing row state cached m with
  | nil =>
    obtain rfl := List.eq_nil_of_length_eq_zero hl
    exact absurd hstop (by simp [refill])
  | cons line lines ih =>
    obtain ⟨r, cached, rfl⟩ := List.exists_cons_of_length_eq_add_one hl
    simp only [refill] at hstop
    split at hstop
    · have : row + m < row + 1 := hstop
      omega
    · next hgo =>
      obtain _ | _ | m := m
      · exact absurd hm (Nat.lt_irrefl 0)
      · simp only [Bool.and_eq_true, decide_eq_true_eq, not_and, Bool.not_eq_true] at hgo
        exact hgo hlast
      · have hstop : row + 1 + (m + 1) < (refill t last (row + 1) (t.tokenize state line).endState
            cached lines).2 := by
          rwa [show row + 1 + (m + 1) = row + (m + 2) by omega]
        exact ih (by simpa using hl) (Nat.succ_pos m) hstop (by omega)

end

/-! ### The range of an update -/

/-- Rows of which `n` from the row `first` on are scanned again, in the state given. -/
def rescanned (t : Tokenizer) (rows : List (Option CachedRow)) (lines : List (List Char))
    (first n : Nat) (state : StateId) : List (Option CachedRow) :=
  rows.take first ++ scanned t state ((lines.drop first).take n) ++ rows.drop (first + n)

/-- What an update scans again of the rows it begins with: from the first new row on in the state
behind those before it, past the last new one, and from there as long as the next row was not scanned
from the state reached. -/
structure Rescans (t : Tokenizer) (rows : List (Option CachedRow)) (lines : List (List Char))
    (first n : Nat) (state : StateId) : Prop where
  length_eq : rows.length = lines.length
  above : Full (rows.take first)
  begins : rows[first]? = some none
  from_state : reached (some .start) (rows.take first) = some state
  stop_le : first + n ≤ lines.length
  new_lt : ∀ i, rows[i]? = some none → i < first + n
  settled : first + n = lines.length ∨
    startsFrom (behind t state ((lines.drop first).take n)) (rows.drop (first + n)) = true
  further : ∀ m, 0 < m → m < n → (∀ i, rows[i]? = some none → i < first + m) →
    startsFrom (behind t state ((lines.drop first).take m)) (rows.drop (first + m)) = false

theorem length_cleared (c : LineCache) (lines : List (List Char)) (firstDirty : Nat) :
    (c.cleared lines firstDirty).length = lines.length := by
  rw [cleared, List.length_set, length_resize]

theorem update_rescans (c : LineCache) {lines : List (List Char)} (hne : lines ≠ [])
    (firstDirty : Nat) : ∃ first n state,
      Rescans c.tokenizer (c.cleared lines firstDirty) lines first n state ∧
      c.update lines firstDirty =
        ({c with rows := rescanned c.tokenizer (c.cleared lines firstDirty) lines first n state},
          first, first + n) := by
  obtain ⟨first, last, state, ⟨hfirst, hf⟩, ⟨hlast, hle⟩, hstate, heq⟩ := update_eq c hne firstDirty
  have hlen := c.length_cleared lines firstDirty
  generalize c.cleared lines firstDirty = rows at *
  have hlt : first < lines.length := hlen ▸ (List.getElem?_eq_some_iff.1 hfirst).1
  have hlast_lt : last < lines.length := hlen ▸ (List.getElem?_eq_some_iff.1 hlast).1
  have hdrop : (rows.drop first).length = (lines.drop first).length := by simp [hlen]
  obtain ⟨n, hn, hrefill, hend⟩ := refill_eq c.tokenizer last first state _ _ hdrop
  rw [List.length_drop] at hn hend
  rw [List.drop_drop] at hrefill hend
  refine ⟨first, n, state, ⟨hlen, hf, hfirst, hstate, by omega, fun i hi => ?_, ?_, ?_⟩, ?_⟩
  · have := hle i hi
    rcases hend with hend | ⟨hend, -⟩ <;> omega
  · exact hend.imp (by omega) And.right
  · intro m hm hmn hnew
    have hstop : first + m < (refill c.tokenizer last first state (rows.drop first)
        (lines.drop first)).2 := by
      rw [hrefill]
      omega
    have := refill_further hdrop hm hstop (hnew last hlast)
    rwa [List.drop_drop] at this
  · rw [heq, hrefill, rescanned, List.append_assoc]

namespace Rescans
variable {t : Tokenizer} {rows : List (Option CachedRow)} {lines : List (List Char)}
  {first n i : Nat} {state : StateId}

theorem first_le_of_new (h : Rescans t rows lines first n state) (hi : rows[i]? = some none) :
    first ≤ i := by
  refine Nat.le_of_not_lt fun hlt => ?_
  have hmem : none ∈ rows.take first :=
    List.mem_iff_getElem?.2 ⟨i, by rw [List.getElem?_take_of_lt hlt, hi]⟩
  exact absurd (h.above none hmem) (by simp)

theorem getElem?_rescanned (h : Rescans t rows lines first n state) (i : Nat) :
    (rescanned t rows lines first n state)[i]? =
      if first ≤ i ∧ i < first + n then
        (scanned t state ((lines.drop first).take n))[i - first]?
      else rows[i]? := by
  have hstop := h.stop_le
  have hlen : (scanned t state ((lines.drop first).take n)).length = n := by
    rw [length_scanned, List.length_take, List.length_drop]
    omega
  rw [rescanned, getElem?_replaced _ _ _ (by rw [h.length_eq]; omega), hlen]
  split
  · rw [if_neg (by omega)]
  · split
    · rw [if_pos (by omega)]
    · rw [if_neg (by omega), show first + n + (i - (first + n)) = i by omega]

/-- Rows outside of the range stay as they are. -/
theorem outside (h : Rescans t rows lines first n state) (hi : i < first ∨ first + n ≤ i) :
    (rescanned t rows lines first n state)[i]? = rows[i]? := by
  rw [h.getElem?_rescanned, if_neg (by omega)]

/-- Rows of the range are scanned one after the other. -/
theorem inside (h : Rescans t rows lines first n state) {m : Nat} {line : List Char} (hm : m < n)
    (hline : lines[first + m]? = some line) :
    (rescanned t rows lines first n state)[first + m]? =
      some (some ⟨behind t state ((lines.drop first).take m),
        t.tokenize (behind t state ((lines.drop first).take m)) line⟩) := by
  have hsame : ((lines.drop first).take n)[m]? = some line := by
    rw [List.getElem?_take_of_lt hm, List.getElem?_drop, hline]
  rw [h.getElem?_rescanned, if_pos (by omega), Nat.add_sub_cancel_left, getElem?_scanned hsame,
    List.take_take, Nat.min_eq_left (Nat.le_of_lt hm)]

theorem full_rescanned (h : Rescans t rows lines first n state) :
    Full (rescanned t rows lines first n state) := by
  intro r hr
  obtain ⟨i, hi⟩ := List.mem_iff_getElem?.1 hr
  by_cases hin : first ≤ i ∧ i < first + n
  · rw [h.getElem?_rescanned, if_pos hin] at hi
    exact scanned_full _ _ _ r (List.mem_of_getElem? hi)
  · rw [h.outside (by omega)] at hi
    cases r with
    | some _ => rfl
    | none =>
      have := h.first_le_of_new hi
      have := h.new_lt i hi
      omega

/-- A row of the range is scanned from the state the row before it leaves. -/
theorem scanned_from (h : Rescans t rows lines first n state) {line : List Char} (hi : first ≤ i)
    (hstop : i < first + n) (hline : lines[i]? = some line) :
    ∃ s, stateBefore (some .start) (rescanned t rows lines first n state) i = some s ∧
      (rescanned t rows lines first n state)[i]? = some (some ⟨s, t.tokenize s line⟩) := by
  obtain ⟨m, rfl⟩ := Nat.exists_eq_add_of_le hi
  refine ⟨_, ?_, h.inside (by omega) hline⟩
  cases m with
  | zero =>
    have hlen : (rows.take first).length = first := by
      have := h.stop_le
      rw [List.length_take, h.length_eq]
      omega
    have := stateBefore_append (some .start) (rows.take first)
      (scanned t state ((lines.drop first).take n) ++ rows.drop (first + n))
    rw [hlen, h.from_state, ← List.append_assoc] at this
    exact this
  | succ m =>
    have hlt : first + m < lines.length := by
      have := (List.getElem?_eq_some_iff.1 hline).1
      omega
    have habove : (lines.drop first)[m]? = some lines[first + m] := by
      rw [List.getElem?_drop, List.getElem?_eq_getElem hlt]
    show ((rescanned t rows lines first n state)[first + m]?).bind endOf = _
    rw [h.inside (by omega) (List.getElem?_eq_getElem hlt)]
    exact congrArg some (endState_scanned habove)

/-- A row of the range beyond the last new one was scanned from another state than the one the row
before it now ends in. -/
theorem needed (h : Rescans t rows lines first n state) (hi : first < i) (hstop : i < first + n)
    (hnew : ∀ j, rows[j]? = some none → j < i) :
    ∃ old above, rows[i]? = some (some old) ∧
      (rescanned t rows lines first n state)[i - 1]? = some (some above) ∧
      old.start ≠ above.row.endState := by
  obtain ⟨m, rfl⟩ := Nat.exists_eq_add_of_lt hi
  have hend := h.stop_le
  have hlt : first + m < lines.length := by omega
  have hrow : first + m + 1 < rows.length := by
    rw [h.length_eq]
    omega
  have hfurther := h.further (m + 1) (Nat.succ_pos m) (by omega) hnew
  obtain ⟨old, hold⟩ : ∃ old, rows[first + m + 1] = some old := by
    refine Option.ne_none_iff_exists'.1 fun hnone => ?_
    have := hnew (first + m + 1) (by rw [List.getElem?_eq_getElem hrow, hnone])
    omega
  refine ⟨old, _, by rw [List.getElem?_eq_getElem hrow, hold],
    h.inside (by omega) (List.getElem?_eq_getElem hlt), fun heq => ?_⟩
  have habove : (lines.drop first)[m]? = some lines[first + m] := by
    rw [List.getElem?_drop, List.getElem?_eq_getElem hlt]
  rw [show first + (m + 1) = first + m + 1 by omega, List.drop_eq_getElem_cons hrow, hold] at hfurther
  simp [startsFrom, heq, endState_scanned habove] at hfurther

end Rescans

/-! ### What an update touches -/

/-- What becomes of the rows `before` an update that scans the rows from `first` up to `stop` again. -/
structure Touches (t : Tokenizer) (lines : List (List Char)) (before after : List (Option CachedRow))
    (first stop : Nat) : Prop where
  first_le : first ≤ stop
  stop_le : stop ≤ lines.length
  length_eq : after.length = lines.length
  /-- Every new row is scanned. -/
  of_new : ∀ i, before[i]? = some none → first ≤ i ∧ i < stop
  /-- No row outside is touched. -/
  outside : ∀ i, i < first ∨ stop ≤ i → after[i]? = before[i]?
  /-- No row is left new. -/
  full : Full after
  /-- A row is scanned from the state the row before it leaves. -/
  scanned : ∀ i line, first ≤ i → i < stop → lines[i]? = some line →
    ∃ s, stateBefore (some .start) after i = some s ∧ after[i]? = some (some ⟨s, t.tokenize s line⟩)
  /-- A row beyond the last new one is scanned only when it has to be. -/
  needed : ∀ i, first < i → i < stop → (∀ j, before[j]? = some none → j < i) →
    ∃ old above, before[i]? = some (some old) ∧ after[i - 1]? = some (some above) ∧
      old.start ≠ above.row.endState

theorem length_rescanned {t : Tokenizer} {rows : List (Option CachedRow)} {lines : List (List Char)}
    {first n : Nat} {state : StateId} (h : Rescans t rows lines first n state) :
    (rescanned t rows lines first n state).length = lines.length := by
  have := h.stop_le
  have := h.length_eq
  rw [rescanned, List.length_append, List.length_append, length_scanned, List.length_take,
    List.length_take, List.length_drop, List.length_drop]
  omega

namespace InStep
variable {c : LineCache} {lines : List (List Char)} {dirty first n : Nat} {state : StateId}

/-- The dirty row is the only new one. -/
theorem eq_of_new (h : InStep c lines) {i : Nat} (hi : (c.rows.set dirty none)[i]? = some none) :
    i = dirty := by
  refine Decidable.byContradiction fun hne => ?_
  rw [List.getElem?_set_ne (Ne.symm hne)] at hi
  exact absurd (h.2 _ (List.mem_of_getElem? hi)) (by simp)

/-- The dirty row comes out as it was. -/
theorem getElem?_dirty (h : InStep c lines)
    (hr : Rescans c.tokenizer (c.rows.set first none) lines first n state) :
    (rescanned c.tokenizer (c.rows.set first none) lines first n state)[first]? =
      c.rows[first]? := by
  have hlt : first < lines.length := hr.length_eq ▸ (List.getElem?_eq_some_iff.1 hr.begins).1
  have hrow : first < c.rows.length := h.1.length_eq ▸ hlt
  obtain ⟨r, hget⟩ := Option.isSome_iff_exists.1 (h.2 _ (List.getElem_mem hrow))
  have hold : c.rows[first]? = some (some r) := by rw [List.getElem?_eq_getElem hrow, hget]
  obtain ⟨hstart, hheld⟩ := h.1.getElem hold
  obtain ⟨s, hbefore, hat⟩ := hr.scanned_from (Nat.le_refl _) (hr.new_lt first hr.begins)
    (List.getElem?_eq_getElem hlt)
  have hs : stateBefore (some .start) c.rows first = some s := by
    cases first with
    | zero => exact hbefore
    | succ above =>
      rwa [stateBefore, hr.outside (by omega), List.getElem?_set_ne (by omega)] at hbefore
  obtain rfl := hstart s hs
  rw [hat, hold, ← hheld _ (List.getElem?_eq_getElem hlt)]

/-- The row below the dirty one was scanned from the state that one ends in. -/
theorem rescans_one (h : InStep c lines)
    (hr : Rescans c.tokenizer (c.rows.set first none) lines first n state) : n = 1 := by
  have hpos := hr.new_lt first hr.begins
  refine Decidable.byContradiction fun hn => ?_
  obtain ⟨old, above, hold, habove, hne⟩ := hr.needed (Nat.lt_add_one first) (by omega)
    fun j hj => Nat.lt_succ_of_le (Nat.le_of_eq (h.eq_of_new hj))
  rw [List.getElem?_set_ne (by omega)] at hold
  rw [Nat.add_sub_cancel, h.getElem?_dirty hr] at habove
  refine hne ((h.1.getElem hold).1 _ ?_)
  rw [stateBefore, habove]
  rfl

/-- Rows that stand in step with the text are scanned again only at the dirty one, and come out as
they were. -/
theorem update_eq_self (h : InStep c lines) (hne : lines ≠ []) (firstDirty : Nat) :
    c.update lines firstDirty =
      (c, min firstDirty (lines.length - 1), min firstDirty (lines.length - 1) + 1) := by
  obtain ⟨first, n, state, hr, heq⟩ := c.update_rescans hne firstDirty
  rw [heq]
  rw [cleared, resize_self h.1.length_eq] at hr ⊢
  generalize min firstDirty (lines.length - 1) = dirty at *
  obtain rfl := h.eq_of_new hr.begins
  obtain rfl := h.rescans_one hr
  have hrows : rescanned c.tokenizer (c.rows.set first none) lines first 1 state = c.rows := by
    refine List.ext_getElem? fun i => ?_
    by_cases hi : i = first
    · rw [hi, h.getElem?_dirty hr]
    · rw [hr.outside (by omega), List.getElem?_set_ne (Ne.symm hi)]
  rw [hrows]

end InStep

/-- **What an update touches.** From whatever rows it begins, with any of them new, an update scans
the rows of the range it gives and no others; it leaves no row new, and beyond the last new row it
goes on only while it must. Of a cache in step with the text it scans the dirty row again, and nothing
changes. -/
theorem update_touches (c : LineCache) (lines : List (List Char)) (firstDirty : Nat) :
    Touches c.tokenizer lines (c.cleared lines firstDirty) (c.update lines firstDirty).1.rows
        (c.update lines firstDirty).2.1 (c.update lines firstDirty).2.2 ∧
      (InStep c lines → lines ≠ [] → c.update lines firstDirty =
        (c, min firstDirty (lines.length - 1), min firstDirty (lines.length - 1) + 1)) := by
  refine ⟨?_, fun h hne => h.update_eq_self hne firstDirty⟩
  by_cases hne : lines = []
  · obtain rfl := hne
    constructor <;> simp [update, cleared, resize, Full]
  · obtain ⟨first, n, state, h, heq⟩ := c.update_rescans hne firstDirty
    rw [heq]
    exact ⟨Nat.le_add_right _ _, h.stop_le, length_rescanned h,
      fun i hi => ⟨h.first_le_of_new hi, h.new_lt i hi⟩, fun i => h.outside, h.full_rescanned,
      fun i line => h.scanned_from, fun i => h.needed⟩

/-- A comment is opened in the first row. Each row below was scanned from another state than the one
now reached, so all are scanned again; a further update scans only the row it is told of. -/
theorem update_touches_opened :
    let lines : List (List Char) := [['#', '#', '#'], ['a'], ['b']]
    let old : LineCache := ⟨blockTokenizer, scanned blockTokenizer .start [['x'], ['a'], ['b']]⟩
    let c := (old.update lines 0).1
    (old.update lines 0).2 = (0, 3) ∧
      (∃ r above, (old.cleared lines 0)[2]? = some (some r) ∧ c.rows[1]? = some (some above) ∧
        r.start ≠ above.row.endState) ∧
      InStep c lines ∧ c.update lines 7 = (c, 2, 3) := by
  intro lines old c
  have hrange : (old.update lines 0).2 = (0, 3) := by decide +kernel
  have hnew : ∀ j, (old.cleared lines 0)[j]? = some none → j < 2 := fun j hj => by
    have hlt := (List.getElem?_eq_some_iff.1 hj).1
    rw [length_cleared] at hlt
    have : ∀ j < 3, (old.cleared lines 0)[j]? = some none → j < 2 := by decide +kernel
    exact this j hlt hj
  have hrows : c.rows = scanned blockTokenizer .start lines := by decide +kernel
  have htokenizer : c.tokenizer = blockTokenizer := update_tokenizer old lines 0
  have hstep : InStep c lines := by
    rw [InStep, hrows, htokenizer]
    exact ⟨scanned_sound .., scanned_full _ _ _⟩
  refine ⟨hrange, (update_touches old lines 0).1.needed 2 ?_ ?_ hnew, hstep,
    (update_touches c lines 7).2 hstep (by decide)⟩
  · rw [hrange]; decide
  · rw [hrange]; decide

end CodeEditing.Lexing.LineCache
