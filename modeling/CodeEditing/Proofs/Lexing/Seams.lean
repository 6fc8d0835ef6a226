import CodeEditing.Proofs.Lexing.Incremental

/-! Seams: where edits have only taken rows out.

Rows above and below a replacement that puts nothing in come to lie side by side, and nothing marks
the place: the row below may have been scanned from another state than the one the row above ends
in. `Replacement.seams` follows these places through the edits of a round. An update goes over every
row up to the one it stops at, and keeps those behind it as they are (`refill_eq`), so what is left
of a seam behind that row is left for good. `row?_play_iff` says what this means for the cache. -/
namespace CodeEditing.Lexing.LineCache

/-! ### Rows by their number -/

/-- The state behind what comes before a row, if it is known; `before` is the one the first row
starts in. -/
def stateBefore (before : Option StateId) (rows : List (Option CachedRow)) : Nat → Option StateId
  | 0 => before
  | i + 1 => rows[i]?.bind endOf

theorem stateBefore_cons (before : Option StateId) (r : Option CachedRow)
    (rows : List (Option CachedRow)) (i : Nat) :
    stateBefore before (r :: rows) (i + 1) = stateBefore (endOf r) rows i := by
  cases i <;> simp [stateBefore]

theorem startState?_eq_stateBefore (c : LineCache) (row : Nat) :
    c.startState? row = stateBefore (some .start) c.rows row := by
  cases row with
  | zero => rfl
  | succ r =>
    simp only [startState?, row?, stateBefore]
    cases c.rows[r]? with
    | none => rfl
    | some q => cases q <;> rfl

/-- Scanned rows hold the tokens of their lines and, except at the seams, start where the row before
ended. -/
structure Seamed (t : Tokenizer) (seams : List Nat) (rows : List (Option CachedRow))
    (lines : List (List Char)) : Prop where
  length_eq : rows.length = lines.length
  held : ∀ (i : Nat) (c : CachedRow) (line : List Char), rows[i]? = some (some c) → 
    lines[i]? = some line → c.row = t.tokenize c.start line
  linked : ∀ (i : Nat) (c : CachedRow), rows[i]? = some (some c) → i ∉ seams →
    ∀ s ∈ stateBefore (some .start) rows i, c.start = s

theorem Sound.getElem {t : Tokenizer} {before : Option StateId} {rows : List (Option CachedRow)}
    {lines : List (List Char)} (h : Sound t before rows lines) {i : Nat} {c : CachedRow}
    (hc : rows[i]? = some (some c)) :
    (∀ s ∈ stateBefore before rows i, c.start = s) ∧
      ∀ line, lines[i]? = some line → c.row = t.tokenize c.start line := by
  induction rows generalizing before lines i with
  | nil => simp at hc
  | cons r rs ih =>
    obtain ⟨line, lines, rfl⟩ := List.exists_cons_of_length_eq_add_one h.length_eq.symm
    cases i with
    | zero =>
      obtain ⟨hs, hrow⟩ := h.1 c (by simpa using hc)
      exact ⟨hs, fun l hl => by simpa using (by simpa using hl : line = l) ▸ hrow⟩
    | succ i =>
      rw [stateBefore_cons]
      exact ih h.2 (by simpa using hc)

theorem Sound.seamed {t : Tokenizer} {rows : List (Option CachedRow)} {lines : List (List Char)}
    (h : Sound t (some .start) rows lines) : Seamed t [] rows lines :=
  ⟨h.length_eq, fun _ _ line hc hl => (h.getElem hc).2 line hl, fun _ _ hc _ => (h.getElem hc).1⟩

/-- Rows are sound when each one holds its tokens and is linked to the one before. -/
theorem sound_of_getElem {t : Tokenizer} {before : Option StateId}
    {rows : List (Option CachedRow)} {lines : List (List Char)} (hl : rows.length = lines.length)
    (h : ∀ i c line, rows[i]? = some (some c) → lines[i]? = some line →
      (∀ s ∈ stateBefore before rows i, c.start = s) ∧ c.row = t.tokenize c.start line) :
    Sound t before rows lines := by
  induction rows generalizing before lines with
  | nil =>
    obtain rfl : lines = [] := List.eq_nil_of_length_eq_zero hl.symm
    trivial
  | cons r rs ih =>
    obtain ⟨line, lines, rfl⟩ := List.exists_cons_of_length_eq_add_one hl.symm
    refine ⟨fun c hc => h 0 c line (by simpa using hc) rfl, ih (by simpa using hl) ?_⟩
    intro i c l hc hi
    have := h (i + 1) c l (by simpa using hc) (by simpa using hi)
    rwa [stateBefore_cons] at this

namespace Seamed
variable {t : Tokenizer} {seams : List Nat} {rows : List (Option CachedRow)}
  {lines : List (List Char)}

/-- Rows above all seams are sound. -/
theorem sound_take (h : Seamed t seams rows lines) {n : Nat} (hn : ∀ p ∈ seams, n ≤ p) :
    Sound t (some .start) (rows.take n) (lines.take n) := by
  refine sound_of_getElem (by simp [h.length_eq]) fun i c line hc hl => ?_
  rw [List.getElem?_take] at hc hl
  split at hc
  case isFalse => cases hc
  next hi =>
  rw [if_pos hi] at hl
  refine ⟨fun s hs => h.linked i c hc (fun hp => absurd (hn i hp) (by omega)) s ?_,
    h.held i c line hc hl⟩
  cases i with
  | zero => exact hs
  | succ i =>
    rwa [stateBefore, List.getElem?_take_of_lt (by omega)] at hs

/-- A row may be forgotten. -/
theorem set_none (h : Seamed t seams rows lines) (n : Nat) :
    Seamed t seams (rows.set n none) lines := by
  have hsome : ∀ {i : Nat} {c : CachedRow}, (rows.set n none)[i]? = some (some c) →
      rows[i]? = some (some c) := by
    intro i c hc
    rw [List.getElem?_set] at hc
    split at hc
    · split at hc <;> simp at hc
    · exact hc
  refine ⟨by simpa using h.length_eq, fun i c line hc => h.held i c line (hsome hc), ?_⟩
  intro i c hc hi s hs
  refine h.linked i c (hsome hc) hi s ?_
  cases i with
  | zero => exact hs
  | succ i =>
    obtain ⟨r, hr, hrs⟩ := Option.bind_eq_some_iff.1 hs
    obtain ⟨a, rfl, -⟩ := Option.map_eq_some_iff.1 hrs
    rw [stateBefore, hsome hr]
    exact hrs

end Seamed

/-! ### Seams behind edits -/

/-- The seams behind an edit: the place of the edit if it puts no rows in, and those of the seams
before it that it does not touch, which move with their rows. -/
def Replacement.seams (e : Replacement) (before : List Nat) : List Nat :=
  (if e.inserted = [] then [e.row] else []) ++ before.filterMap fun p =>
    if p < e.row then some p
    else if e.row + e.removed < p then some (p - e.removed + e.inserted.length) else none

/-- The seams behind the edits of a round. -/
def Round.seams (r : Round) : List Nat := r.edits.foldl (fun before e => e.seams before) []

theorem Replacement.mem_seams {e : Replacement} {before : List Nat} {p : Nat} :
    p ∈ e.seams before ↔ (e.inserted = [] ∧ p = e.row) ∨ (p ∈ before ∧ p < e.row) ∨
      ∃ q ∈ before, e.row + e.removed < q ∧ p = q - e.removed + e.inserted.length := by
  unfold seams
  rw [List.mem_append, List.mem_filterMap]
  refine or_congr ?_ ⟨?_, ?_⟩
  · split <;> simp [*]
  · rintro ⟨q, hq, hp⟩
    split at hp
    · next hlt => cases hp; exact .inl ⟨hq, hlt⟩
    · split at hp
      · next hlt => cases hp; exact .inr ⟨q, hq, hlt, rfl⟩
      · cases hp
  · rintro (⟨hp, hlt⟩ | ⟨q, hq, hlt, rfl⟩)
    · exact ⟨p, hp, by rw [if_pos hlt]⟩
    · exact ⟨q, hq, by rw [if_neg (by omega), if_pos hlt]⟩

theorem getElem?_replaced {xs : List α} (mid : List α) {row : Nat} (stop i : Nat)
    (h : row ≤ xs.length) : (xs.take row ++ mid ++ xs.drop stop)[i]? =
      if i < row then xs[i]? else if i < row + mid.length then mid[i - row]?
      else xs[stop + (i - (row + mid.length))]? := by
  have hlen : (xs.take row).length = row := by rw [List.length_take, Nat.min_eq_left h]
  rw [List.append_assoc, List.getElem?_append, hlen]
  split
  · next hi => exact List.getElem?_take_of_lt hi
  · rw [List.getElem?_append]
    split
    · next hi => rw [if_pos (by omega)]
    · next hi => rw [if_neg (by omega), List.getElem?_drop, Nat.sub_add_eq]

/-- A replacement leaves seams where it says. -/
theorem Seamed.mirror {c : LineCache} {seams : List Nat} {lines : List (List Char)}
    {e : Replacement} (h : Seamed c.tokenizer seams c.rows lines) (hf : e.Fits lines) :
    Seamed c.tokenizer (e.seams seams) (e.mirror c).rows (e.apply lines) := by
  have hrow : e.row ≤ lines.length := Nat.le_trans (Nat.le_add_right _ _) hf
  have hrows (i : Nat) := getElem?_replaced (List.replicate e.inserted.length none)
    (e.row + e.removed) i (h.length_eq ▸ hrow)
  have hlines (i : Nat) := getElem?_replaced e.inserted (e.row + e.removed) i hrow
  simp only [List.length_replicate] at hrows
  -- a scanned row is one from above the edit, or one from below that has moved
  have old : ∀ {i : Nat} {r : CachedRow}, (e.mirror c).rows[i]? = some (some r) →
      (i < e.row ∧ c.rows[i]? = some (some r)) ∨ (e.row + e.inserted.length ≤ i ∧
        c.rows[e.row + e.removed + (i - (e.row + e.inserted.length))]? = some (some r)) := by
    intro i r hr
    rw [Replacement.mirror, splice, hrows] at hr
    split at hr
    · exact .inl ⟨‹_›, hr⟩
    · split at hr
      · next hi => simp [List.getElem?_replicate] at hr
      · exact .inr ⟨by omega, hr⟩
  refine ⟨?_, fun i r line hr hline => ?_, fun i r hr hi s hs => ?_⟩
  · simp only [Replacement.mirror, splice, Replacement.apply, List.length_append, List.length_take,
      List.length_replicate, List.length_drop, h.length_eq]
  · rw [Replacement.apply, hlines] at hline
    rcases old hr with ⟨hlt, hr⟩ | ⟨hle, hr⟩
    · rw [if_pos hlt] at hline
      exact h.held i r line hr hline
    · rw [if_neg (by omega), if_neg (by omega)] at hline
      exact h.held _ r line hr hline
  · rw [Replacement.mem_seams] at hi
    rcases old hr with ⟨hlt, hr⟩ | ⟨hle, hr⟩
    · refine h.linked i r hr (fun hp => hi (.inr (.inl ⟨hp, hlt⟩))) s ?_
      cases i with
      | zero => exact hs
      | succ i =>
        rwa [stateBefore, Replacement.mirror, splice, hrows, if_pos (by omega)] at hs
    · cases i with
      | zero => exact absurd (.inl ⟨List.eq_nil_of_length_eq_zero (by omega), by omega⟩) hi
      | succ i =>
        obtain ⟨q, hq, hqs⟩ := Option.bind_eq_some_iff.1 hs
        obtain ⟨a, rfl, -⟩ := Option.map_eq_some_iff.1 hqs
        rcases old hq with ⟨hlt, -⟩ | ⟨hle', hq⟩
        · exact absurd (.inl ⟨List.eq_nil_of_length_eq_zero (by omega), by omega⟩) hi
        · have hj : e.row + e.removed + (i + 1 - (e.row + e.inserted.length)) =
              e.row + e.removed + (i - (e.row + e.inserted.length)) + 1 := by omega
          rw [hj] at hr
          refine h.linked _ r hr (fun hp => hi (.inr (.inr ⟨_, hp, by omega, by omega⟩))) s ?_
          rw [stateBefore, hq]
          exact hqs

theorem Seamed.mirrorAll {c : LineCache} {seams : List Nat} {lines : List (List Char)}
    {es : List Replacement} (h : Seamed c.tokenizer seams c.rows lines)
    (hf : Replacement.AllFit lines es) :
    Seamed c.tokenizer (es.foldl (fun before e => e.seams before) seams)
      (es.foldl Replacement.mirror c).rows (es.foldl Replacement.apply lines) := by
  induction es generalizing c seams lines with
  | nil => exact h
  | cons e es ih => exact ih (c := e.mirror c) (h.mirror hf.1) hf.2

theorem Round.foldl_min_row_le (es : List Replacement) (row : Nat) :
    es.foldl (fun row d => min row d.row) row ≤ row ∧
      ∀ e ∈ es, es.foldl (fun row d => min row d.row) row ≤ e.row := by
  induction es generalizing row with
  | nil => exact ⟨Nat.le_refl row, nofun⟩
  | cons e es ih =>
    obtain ⟨hrow, hes⟩ := ih (min row e.row)
    refine ⟨Nat.le_trans hrow (Nat.min_le_left ..), fun d hd => ?_⟩
    rcases List.mem_cons.1 hd with rfl | hd
    · exact Nat.le_trans hrow (Nat.min_le_right ..)
    · exact hes d hd

/-- No seam lies above the first row that is edited. -/
theorem Round.firstRow_le_of_mem_seams (r : Round) {p : Nat} (hp : p ∈ r.seams) :
    r.firstRow ≤ p := by
  have hgo : ∀ (es : List Replacement) (seams : List Nat) (n : Nat), (∀ e ∈ es, n ≤ e.row) →
      (∀ q ∈ seams, n ≤ q) → ∀ q ∈ es.foldl (fun before e => e.seams before) seams, n ≤ q := by
    intro es
    induction es with
    | nil => exact fun _ _ _ hs => hs
    | cons e es ih =>
      intro seams n he hs
      refine ih _ n (fun d hd => he d (List.mem_cons_of_mem _ hd)) fun q hq => ?_
      have := he e List.mem_cons_self
      rcases Replacement.mem_seams.1 hq with ⟨-, rfl⟩ | ⟨hq, -⟩ | ⟨q, hq, hlt, rfl⟩
      · exact this
      · exact hs q hq
      · omega
  refine hgo r.edits [] r.firstRow (fun e he => ?_) (by simp) p hp
  cases r with
  | single d => exact Nat.le_of_eq (congrArg Replacement.row (List.mem_singleton.1 he)).symm
  | batch d ds =>
    rcases List.mem_cons.1 he with rfl | he
    · exact (foldl_min_row_le ds e.row).1
    · exact (foldl_min_row_le ds d.row).2 e he

/-! ### What an update goes over -/

/-- The rows of lines that are scanned one after the other. -/
def scanned (t : Tokenizer) (state : StateId) : List (List Char) → List (Option CachedRow)
  | [] => []
  | line :: lines =>
    let found := t.tokenize state line
    some ⟨state, found⟩ :: scanned t found.endState lines

/-- The state behind lines that are scanned one after the other. -/
def behind (t : Tokenizer) (state : StateId) : List (List Char) → StateId
  | [] => state
  | line :: lines => behind t (t.tokenize state line).endState lines

theorem length_scanned (t : Tokenizer) (state : StateId) (lines : List (List Char)) :
    (scanned t state lines).length = lines.length := by
  induction lines generalizing state with
  | nil => rfl
  | cons line lines ih => simp [scanned, ih]

theorem scanned_full (t : Tokenizer) (state : StateId) (lines : List (List Char)) :
    Full (scanned t state lines) := by
  induction lines generalizing state with
  | nil => simp [scanned, Full]
  | cons line lines ih =>
    intro r hr
    rcases List.mem_cons.1 hr with rfl | hr
    · rfl
    · exact ih _ r hr

theorem scanned_sound (t : Tokenizer) (state : StateId) (lines : List (List Char)) :
    Sound t (some state) (scanned t state lines) lines := by
  induction lines generalizing state with
  | nil => trivial
  | cons line lines ih =>
    refine ⟨fun c hc => ?_, ih _⟩
    obtain rfl := Option.some.inj hc
    exact ⟨fun s hs => Option.some.inj hs, rfl⟩

theorem reached_scanned (t : Tokenizer) (state : StateId) (lines : List (List Char)) :
    reached (some state) (scanned t state lines) = some (behind t state lines) := by
  induction lines generalizing state with
  | nil => rfl
  | cons line lines ih => exact ih _

/-- Filling up scans a number of rows one after the other and keeps the others. It stops at the end
or, beyond `last`, at a row that starts in the state reached. -/
theorem refill_eq (t : Tokenizer) (last row : Nat) (state : StateId)
    (cached : List (Option CachedRow)) (lines : List (List Char))
    (hl : cached.length = lines.length) : ∃ n ≤ lines.length,
      refill t last row state cached lines =
        (scanned t state (lines.take n) ++ cached.drop n, row + n) ∧
      (n = lines.length ∨
        last < row + n ∧ startsFrom (behind t state (lines.take n)) (cached.drop n)) := by
  induction lines generalizing row state cached with
  | nil =>
    obtain rfl := List.eq_nil_of_length_eq_zero hl
    exact ⟨0, Nat.le_refl _, rfl, .inl rfl⟩
  | cons line lines ih =>
    obtain ⟨r, cached, rfl⟩ := List.exists_cons_of_length_eq_add_one hl
    simp only [refill]
    split
    · next hstop =>
      simp only [Bool.and_eq_true, decide_eq_true_eq] at hstop
      exact ⟨1, by simp, rfl, .inr hstop⟩
    · obtain ⟨n, hn, heq, hend⟩ :=
        ih (row + 1) (t.tokenize state line).endState cached (by simpa using hl)
      refine ⟨n + 1, by simpa using hn, ?_, ?_⟩
      · rw [heq]
        simp only [List.take_succ_cons, List.drop_succ_cons, scanned, List.cons_append,
          Nat.add_assoc, Nat.add_comm 1 n]
      · rcases hend with hend | ⟨hlast, hstart⟩
        · exact .inl (by simp [hend])
        · exact .inr ⟨by omega, hstart⟩

/-- All rows above the dirty one at most have been scanned. -/
theorem first_le_of_full (c : LineCache) {lines : List (List Char)} (hne : lines ≠ [])
    {firstDirty first : Nat} (hf : Full ((c.cleared lines firstDirty).take first)) :
    first ≤ min firstDirty (lines.length - 1) := by
  have hpos : 0 < lines.length := List.length_pos_iff.2 hne
  refine Nat.le_of_not_lt fun hlt => ?_
  have hdirty : (c.cleared lines firstDirty)[min firstDirty (lines.length - 1)]? = some none :=
    List.getElem?_set_self (by rw [length_resize]; omega)
  exact absurd (hf none (List.mem_iff_getElem?.2 ⟨_, by rw [List.getElem?_take_of_lt hlt, hdirty]⟩))
    (by simp)

theorem reached_append (before : Option StateId) (rows more : List (Option CachedRow)) :
    reached before (rows ++ more) = reached (reached before rows) more := by
  induction rows generalizing before with
  | nil => rfl
  | cons r rs ih => exact ih _

theorem stateBefore_append (before : Option StateId) (rows more : List (Option CachedRow)) :
    stateBefore before (rows ++ more) rows.length = reached before rows := by
  induction rows generalizing before with
  | nil => rfl
  | cons r rs ih =>
    rw [List.cons_append, List.length_cons, stateBefore_cons]
    exact ih _

/-- Sound rows in the place of those above a row that starts where they end leave only the seams
behind that row. -/
theorem Seamed.replace_above {t : Tokenizer} {seams : List Nat}
    {above rows : List (Option CachedRow)} {lines : List (List Char)}
    (h : Seamed t seams rows lines) (ha : Sound t (some .start) above (lines.take above.length))
    (hle : above.length ≤ lines.length)
    (hnext : ∀ c, rows[above.length]? = some (some c) →
      ∀ s ∈ reached (some .start) above, c.start = s) :
    Seamed t (seams.filter (above.length < ·)) (above ++ rows.drop above.length) lines := by
  have hget (i : Nat) : (above ++ rows.drop above.length)[i]? =
      if i < above.length then above[i]? else rows[i]? := by
    rw [List.getElem?_append]
    split
    · rfl
    · rw [List.getElem?_drop, Nat.add_sub_cancel' (by omega)]
  refine ⟨?_, fun i c line hc hl => ?_, fun i c hc hi s hs => ?_⟩
  · rw [List.length_append, List.length_drop, h.length_eq, Nat.add_sub_cancel' hle]
  · rw [hget] at hc
    split at hc
    · next hlt => exact (ha.getElem hc).2 line (by rw [List.getElem?_take_of_lt hlt, hl])
    · exact h.held i c line hc hl
  · rw [hget] at hc
    split at hc
    · next hlt =>
      refine (ha.getElem hc).1 s ?_
      cases i with
      | zero => exact hs
      | succ i => rwa [stateBefore, hget, if_pos (by omega)] at hs
    · next hge =>
      rcases Nat.eq_or_lt_of_le (Nat.le_of_not_lt hge) with rfl | hlt
      · rw [stateBefore_append] at hs
        exact hnext c hc s hs
      · refine h.linked i c hc (fun hp => hi (List.mem_filter.2 ⟨hp, by simpa using hlt⟩)) s ?_
        obtain ⟨j, rfl⟩ := Nat.exists_eq_add_of_lt hlt
        rwa [stateBefore, hget, if_neg (by omega)] at hs

/-- An update of rows with seams leaves only those that lie behind the row it stops at. -/
theorem Seamed.update {c : LineCache} {seams : List Nat} {lines : List (List Char)}
    {firstDirty : Nat} (hne : lines ≠ []) (hs : ∀ p ∈ seams, firstDirty ≤ p)
    (h : Seamed c.tokenizer seams (c.cleared lines firstDirty) lines) :
    Seamed c.tokenizer (seams.filter ((c.update lines firstDirty).2.2 < ·))
        (c.update lines firstDirty).1.rows lines ∧
      Full (c.update lines firstDirty).1.rows := by
  obtain ⟨first, last, state, ⟨-, hf⟩, ⟨-, hlast⟩, hstate, heq⟩ := update_eq c hne firstDirty
  have hfirst := first_le_of_full c hne hf
  generalize c.cleared lines firstDirty = rows at *
  obtain ⟨n, hn, hrefill, hend⟩ := refill_eq c.tokenizer last first state
    (rows.drop first) (lines.drop first) (by simp [h.length_eq])
  have hlines := List.length_pos_iff.2 hne
  have hrows := h.length_eq
  rw [List.length_drop] at hn hend
  rw [List.drop_drop] at hend
  obtain ⟨above, habove⟩ : ∃ above, above =
      rows.take first ++ scanned c.tokenizer state ((lines.drop first).take n) := ⟨_, rfl⟩
  have hlen : above.length = first + n := by
    rw [habove, List.length_append, length_scanned, List.length_take, List.length_take,
      List.length_drop]
    omega
  have hsound : Sound c.tokenizer (some .start) above (lines.take above.length) := by
    rw [hlen, habove, List.take_add]
    refine (Sound.append_iff (by simp [h.length_eq])).2 ⟨h.sound_take fun p hp => ?_, ?_⟩
    · have := hs p hp
      omega
    · rw [hstate]
      exact scanned_sound ..
  have hreached : reached (some .start) above =
      some (behind c.tokenizer state ((lines.drop first).take n)) := by
    rw [habove, reached_append, hstate, reached_scanned]
  have hupdate : c.update lines firstDirty =
      ({c with rows := above ++ rows.drop above.length}, first, above.length) := by
    rw [heq, hrefill, hlen, habove, List.drop_drop, List.append_assoc]
  rw [hupdate]
  refine ⟨h.replace_above hsound (by omega) fun r hr s hs => ?_, fun r hr => ?_⟩
  · have hlt := (List.getElem?_eq_some_iff.1 hr).1
    obtain ⟨-, hstart⟩ := hend.resolve_left (by omega)
    rw [← hlen, List.drop_eq_getElem_cons hlt, (List.getElem?_eq_some_iff.1 hr).2] at hstart
    rw [hreached] at hs
    rw [← Option.some.inj hs]
    simpa [startsFrom] using hstart
  · rcases List.mem_append.1 hr with hr | hr
    · rw [habove] at hr
      exact (List.mem_append.1 hr).elim (hf r) (scanned_full _ _ _ r)
    · obtain ⟨i, hi⟩ := List.mem_iff_getElem?.1 hr
      rw [List.getElem?_drop] at hi
      have hlt := (List.getElem?_eq_some_iff.1 hi).1
      cases r with
      | some r => rfl
      | none =>
        have := hlast _ hi
        rcases hend with hend | ⟨hend, -⟩ <;> omega

/-! ### Rows that follow on -/

/-- A row holds what scanning its line from the state behind the row before gives. -/
def FollowsOn (c : LineCache) (lines : List (List Char)) (row : Nat) : Prop :=
  ∀ s line, c.startState? row = some s → lines[row]? = some line →
    c.row? row = some (c.tokenizer.tokenize s line)

/-- Scanning from scratch goes from row to row. -/
theorem getElem?_tokenizeFrom (t : Tokenizer) (s : StateId) (lines : List (List Char)) (i : Nat) :
    (t.tokenizeFrom s lines)[i + 1]? = (t.tokenizeFrom s lines)[i]?.bind fun r =>
      lines[i + 1]?.map (t.tokenize r.endState) := by
  induction lines generalizing s i with
  | nil => rfl
  | cons line lines ih =>
    cases i with
    | zero => cases lines <;> simp [Tokenizer.tokenizeFrom]
    | succ i => simpa [Tokenizer.tokenizeFrom] using ih (t.tokenize s line).endState i

/-- The rows of a cache without gaps are right down to some row exactly when each follows on. -/
theorem row?_eq_iff_followsOn {c : LineCache} {lines : List (List Char)}
    (hl : c.rows.length = lines.length) (hf : Full c.rows) (n : Nat) :
    (∀ row < n, c.row? row = (c.tokenizer.tokenizeLines lines)[row]?) ↔
      ∀ row < n, c.FollowsOn lines row := by
  constructor
  · intro h row hn s line hs hline
    rw [h row hn]
    cases row with
    | zero =>
      cases lines with
      | nil => cases hline
      | cons l ls =>
        cases hs
        cases hline
        rfl
    | succ row =>
      obtain ⟨r, hr, rfl⟩ := Option.map_eq_some_iff.1 hs
      rw [Tokenizer.tokenizeLines, getElem?_tokenizeFrom, ← Tokenizer.tokenizeLines,
        ← h row (Nat.lt_of_succ_lt hn), hr, hline]
      rfl
  · intro h row hn
    have hnone : ∀ {row}, lines[row]? = none → c.row? row = none := fun hline => by
      rw [row?, List.getElem?_eq_none (by have := List.getElem?_eq_none_iff.1 hline; omega)]
      rfl
    induction row with
    | zero =>
      cases lines with
      | nil => exact hnone rfl
      | cons line lines => exact h 0 hn .start line rfl rfl
    | succ row ih =>
      rw [Tokenizer.tokenizeLines, getElem?_tokenizeFrom, ← Tokenizer.tokenizeLines,
        ← ih (Nat.lt_of_succ_lt hn)]
      cases hline : lines[row + 1]? with
      | none => rw [hnone hline]; cases c.row? row <;> rfl
      | some line =>
        have hlt : row < c.rows.length := by
          have := (List.getElem?_eq_some_iff.1 hline).1
          omega
        obtain ⟨r, hr⟩ := Option.isSome_iff_exists.1 (hf _ (List.getElem_mem hlt))
        have hrow : c.row? row = some r.row := by
          rw [row?, List.getElem?_eq_getElem hlt, hr]
          rfl
        rw [hrow]
        exact h (row + 1) hn r.row.endState line (by rw [startState?, hrow]; rfl) hline

/-- Rows follow on except at the seams. -/
theorem Seamed.followsOn {c : LineCache} {seams : List Nat} {lines : List (List Char)}
    (h : Seamed c.tokenizer seams c.rows lines) (hf : Full c.rows) {row : Nat}
    (hrow : row ∉ seams) : c.FollowsOn lines row := by
  intro s line hs hline
  have hlt : row < c.rows.length := by
    have := (List.getElem?_eq_some_iff.1 hline).1
    rwa [h.length_eq]
  obtain ⟨r, hr⟩ := Option.isSome_iff_exists.1 (hf _ (List.getElem_mem hlt))
  have hget : c.rows[row]? = some (some r) := by rw [List.getElem?_eq_getElem hlt, hr]
  rw [startState?_eq_stateBefore] at hs
  rw [row?, hget, ← h.linked row r hget hrow s hs, ← h.held row r line hget hline]
  rfl

/-! ### Rounds of any kind -/

/-- The row the update of a round stops at. -/
def Round.stop (c : LineCache) (lines : List (List Char)) (r : Round) : Nat :=
  ((r.edits.foldl Replacement.mirror c).update (r.text lines) r.firstRow).2.2

/-- A round leaves no seams but those behind the row its update stops at. -/
theorem Round.seamed_play {c : LineCache} {lines : List (List Char)} (r : Round)
    (h : InStep c lines) (hf : Replacement.AllFit lines r.edits) :
    Seamed c.tokenizer (r.seams.filter (r.stop c lines < ·)) (r.play c lines).rows
        (r.text lines) ∧
      Full (r.play c lines).rows := by
  by_cases hne : r.text lines = []
  · have hrows : (r.play c lines).rows = [] := by simp [play, LineCache.update, hne, resize]
    rw [hrows, hne]
    exact ⟨⟨rfl, by simp, by simp⟩, by simp [Full]⟩
  · have hs : Seamed c.tokenizer r.seams (r.edits.foldl Replacement.mirror c).rows (r.text lines) :=
      h.1.seamed.mirrorAll hf
    have hc := hs.set_none (min r.firstRow ((r.text lines).length - 1))
    rw [← mirrorAll_tokenizer c r.edits] at hc ⊢
    refine Seamed.update hne (fun p => r.firstRow_le_of_mem_seams) ?_
    rwa [cleared, resize_self hs.length_eq]

/-- **What a round leaves right.** Above the row its update stops at, a cache that was in step with
the text holds what scanning the new text from scratch gives. It does so everywhere exactly when at
every seam behind that row the row below follows on. -/
theorem row?_play_iff {c : LineCache} {lines : List (List Char)} (r : Round) (h : InStep c lines)
    (hf : Replacement.AllFit lines r.edits) :
    (∀ row < r.stop c lines,
        (r.play c lines).row? row = (c.tokenizer.tokenizeLines (r.text lines))[row]?) ∧
      ((∀ row, (r.play c lines).row? row = (c.tokenizer.tokenizeLines (r.text lines))[row]?) ↔
        ∀ row ∈ r.seams, r.stop c lines < row → (r.play c lines).FollowsOn (r.text lines) row) := by
  obtain ⟨hs, hfull⟩ := r.seamed_play h hf
  have ht : (r.play c lines).tokenizer = c.tokenizer := by
    rw [Round.play, update_tokenizer, mirrorAll_tokenizer]
  rw [← ht] at hs ⊢
  have hright (n : Nat) := row?_eq_iff_followsOn hs.length_eq hfull n
  have hfollows : ∀ row, (row ∈ r.seams → r.stop c lines < row →
      (r.play c lines).FollowsOn (r.text lines) row) →
      (r.play c lines).FollowsOn (r.text lines) row := by
    intro row hrow
    by_cases hp : row ∈ r.seams.filter (r.stop c lines < ·)
    · obtain ⟨hmem, hlt⟩ := List.mem_filter.1 hp
      exact hrow hmem (by simpa using hlt)
    · exact hs.followsOn hfull hp
  refine ⟨(hright _).2 fun row hlt => hfollows row fun _ hgt => absurd hgt (by omega), ?_, ?_⟩
  · exact fun h row _ _ => (hright (row + 1)).1 (fun row _ => h row) row (Nat.lt_succ_self row)
  · exact fun h row => (hright (row + 1)).2 (fun row _ => hfollows row (h row)) row
      (Nat.lt_succ_self row)

/-- Nothing but block comments. -/
def blockComments : TableDraft :=
  ((({} : TableDraft).rule "start" (Coffee.ofKind "###" .comment "comment")).rule "comment"
    (Coffee.ofKind "###" .comment "start")).defaultKind "comment" .comment

def blockTokenizer : Tokenizer := ⟨blockComments.build.toOption.getD ⟨[]⟩, defaultCap⟩

/-- The mark that opens a comment is taken out below a line that is replaced. The update stops behind
that line, and the row below the seam stays in the comment. -/
theorem row?_play_openedComment :
    let lines : List (List Char) := [['x'], ['a'], ['#', '#', '#'], ['b']]
    let c := (Round.single ⟨0, 0, lines⟩).play (ofTokenizer blockTokenizer) []
    let r : Round := .batch ⟨0, 1, [['y']]⟩ [⟨2, 1, []⟩]
    blockComments.build.isOk ∧ InStep c lines ∧ Replacement.AllFit lines r.edits ∧
      r.text lines = [['y'], ['a'], ['b']] ∧ r.seams = [2] ∧ r.stop c lines = 1 ∧
      ¬ ∀ row, (r.play c lines).row? row =
        (c.tokenizer.tokenizeLines (r.text lines))[row]? := by
  intro lines c r
  have hstep : InStep c lines :=
    Round.inStep_play (r := .single ⟨0, 0, lines⟩) (.inr (by simp [Blank, ofTokenizer])) (by decide)
  have hfit : Replacement.AllFit lines r.edits := by decide
  have hseams : r.seams = [2] := by decide
  have hstop : r.stop c lines = 1 := by decide +kernel
  refine ⟨by decide +kernel, hstep, hfit, by decide, hseams, hstop, fun hright => ?_⟩
  have hbelow : (r.play c lines).FollowsOn (r.text lines) 2 :=
    (row?_play_iff r hstep hfit).2.1 hright 2 (by simp [hseams]) (by simp [hstop])
  have hstart : (r.play c lines).startState? 2 = some .start := by decide +kernel
  have hcomment : (r.play c lines).row? 2 = some ⟨[⟨.comment, ['b'], 0⟩], ⟨1⟩⟩ := by decide +kernel
  have htext : (r.play c lines).tokenizer.tokenize .start ['b'] = ⟨[⟨.text, ['b'], 0⟩], .start⟩ := by
    decide +kernel
  have := hbelow .start ['b'] hstart rfl
  rw [hcomment, htext] at this
  exact absurd this (by decide)

end CodeEditing.Lexing.LineCache
