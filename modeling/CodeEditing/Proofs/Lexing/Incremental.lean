import CodeEditing.Lexing.LineCache
import CodeEditing.Lexing.Coffee

/-! Incremental scanning against scanning from scratch.

A text is edited in rounds, and a cache follows it: every replacement of rows is mirrored by a
`splice`, and a round ends with one `update`. What holds between the rows of a cache and the lines
of the text is `Sound`: a row that has been scanned holds the tokens of its line, and one that
follows a scanned row was scanned from the state that row ended in. A replacement that puts rows in
keeps it, because the new rows part what was not side by side before; one that only takes rows out
may break it at one place, which is the place the next `update` scans again. `update` fills a sound
cache up (`Sound.update`), so after every round the cache is what scanning from scratch gives
(`row?_playAll`). -/
namespace CodeEditing.Lexing.LineCache

/-! ### Sound rows -/

/-- The state behind a row, if the row has been scanned. -/
def endOf (r : Option CachedRow) : Option StateId := r.map (·.row.endState)

/-- The state behind rows that begin behind `before`. -/
def reached : Option StateId → List (Option CachedRow) → Option StateId
  | before, [] => before
  | _, r :: rs => reached (endOf r) rs

/-- Scanned rows hold the tokens of their lines, and start where a scanned row before them ended.
`before` is the state behind what comes before the rows, if it is known. -/
def Sound (t : Tokenizer) : Option StateId → List (Option CachedRow) → List (List Char) → Prop
  | _, [], [] => True
  | before, r :: rs, line :: lines =>
    (∀ c ∈ r, (∀ s ∈ before, c.start = s) ∧ c.row = t.tokenize c.start line) ∧
      Sound t (endOf r) rs lines
  | _, _, _ => False

/-- Every row has been scanned. -/
def Full (rows : List (Option CachedRow)) : Prop := ∀ r ∈ rows, r.isSome

/-- No row has been scanned. -/
def Blank (rows : List (Option CachedRow)) : Prop := ∀ r ∈ rows, r = none

namespace Sound
variable {t : Tokenizer} {before : Option StateId} {rows more : List (Option CachedRow)}
  {lines text : List (List Char)}

theorem length_eq (h : Sound t before rows lines) : rows.length = lines.length := by
  induction rows generalizing before lines with
  | nil => cases lines with
    | nil => rfl
    | cons line lines => exact h.elim
  | cons r rs ih => cases lines with
    | nil => exact h.elim
    | cons line lines => simp [ih h.2]

/-- Less known of what comes before asks for less. -/
theorem forget (h : Sound t before rows lines) : Sound t none rows lines := by
  cases rows with
  | nil => cases lines with
    | nil => trivial
    | cons line lines => exact h
  | cons r rs => cases lines with
    | nil => exact h
    | cons line lines => exact ⟨fun c hc => ⟨by simp, (h.1 c hc).2⟩, h.2⟩

theorem append_iff (hl : rows.length = lines.length) :
    Sound t before (rows ++ more) (lines ++ text) ↔
      Sound t before rows lines ∧ Sound t (reached before rows) more text := by
  induction rows generalizing before lines with
  | nil =>
    obtain rfl : lines = [] := List.eq_nil_of_length_eq_zero hl.symm
    simp [Sound, reached]
  | cons r rs ih =>
    cases lines with
    | nil => simp at hl
    | cons line lines =>
      have hl' : rs.length = lines.length := by simpa using hl
      simp only [List.cons_append, Sound, reached, ih hl', and_assoc]

theorem of_blank (hb : Blank rows) (hl : rows.length = lines.length) :
    Sound t before rows lines := by
  induction rows generalizing before lines with
  | nil =>
    obtain rfl : lines = [] := List.eq_nil_of_length_eq_zero hl.symm
    trivial
  | cons r rs ih =>
    obtain ⟨line, lines, rfl⟩ := List.exists_cons_of_length_eq_add_one hl.symm
    obtain rfl : r = none := hb r (by simp)
    exact ⟨by simp, ih (fun q hq => hb q (by simp [hq])) (by simpa using hl)⟩

theorem take (h : Sound t before rows lines) (n : Nat) :
    Sound t before (rows.take n) (lines.take n) := by
  have hl : (rows.take n).length = (lines.take n).length := by simp [h.length_eq]
  rw [← List.take_append_drop n rows, ← List.take_append_drop n lines, append_iff hl] at h
  exact h.1

theorem drop (h : Sound t before rows lines) (n : Nat) :
    Sound t none (rows.drop n) (lines.drop n) := by
  have hl : (rows.take n).length = (lines.take n).length := by simp [h.length_eq]
  rw [← List.take_append_drop n rows, ← List.take_append_drop n lines, append_iff hl] at h
  exact h.2.forget

/-- A row may be forgotten. -/
theorem set_none (h : Sound t before rows lines) (i : Nat) :
    Sound t before (rows.set i none) lines := by
  induction rows generalizing before lines i with
  | nil => exact h
  | cons r rs ih =>
    cases lines with
    | nil => exact h.elim
    | cons line lines =>
      cases i with
      | zero => exact ⟨by simp, h.2.forget⟩
      | succ i => exact ⟨h.1, ih h.2 i⟩

/-- Rows that were not side by side may be when the first of the later ones is forgotten, or when
there are none. -/
theorem join (ha : Sound t before rows lines) (hb : Sound t none more text) :
    Sound t before ((rows ++ more).set (min rows.length ((lines ++ text).length - 1)) none)
      (lines ++ text) := by
  have hl := ha.length_eq
  cases more with
  | nil =>
    obtain rfl : text = [] := List.eq_nil_of_length_eq_zero (by simpa using hb.length_eq.symm)
    simpa using ha.set_none _
  | cons r rs =>
    cases text with
    | nil => exact hb.elim
    | cons line text =>
      have hm : min rows.length ((lines ++ line :: text).length - 1) = rows.length := by
        simp only [List.length_append, List.length_cons]
        omega
      rw [hm, List.set_append_right _ _ (Nat.le_refl _), Nat.sub_self, append_iff hl]
      exact ⟨ha, by simp, hb.2.forget⟩

/-- Sound rows without gaps are the rows of scanning from scratch. -/
theorem rows_eq {s : StateId} (h : Sound t (some s) rows lines) (hf : Full rows) :
    rows.map (Option.map CachedRow.row) = (t.tokenizeFrom s lines).map some := by
  induction rows generalizing s lines with
  | nil =>
    obtain rfl : lines = [] := List.eq_nil_of_length_eq_zero h.length_eq.symm
    rfl
  | cons r rs ih =>
    obtain ⟨line, lines, rfl⟩ := List.exists_cons_of_length_eq_add_one h.length_eq.symm
    obtain ⟨c, rfl⟩ := Option.isSome_iff_exists.1 (hf r (by simp))
    obtain ⟨hs, hc⟩ := h.1 c rfl
    obtain rfl : c.start = s := hs s rfl
    have := ih h.2 fun q hq => hf q (by simp [hq])
    simp only [List.map_cons, Option.map_some, Tokenizer.tokenizeFrom, this, ← hc]

end Sound

/-! ### Filling up -/

theorem full_of_none_le {last row : Nat} {cached : List (Option CachedRow)}
    (hn : ∀ i, cached[i]? = some none → row + i ≤ last) (hr : last < row) : Full cached := by
  intro r hr'
  obtain ⟨i, hi⟩ := List.mem_iff_getElem?.1 hr'
  cases r with
  | none => have := hn i hi; omega
  | some c => rfl

/-- Scanning again from a state gives sound rows behind that state without gaps, provided that no
row beyond `last` is new. -/
theorem Sound.refill {t : Tokenizer} {last row : Nat} {cached : List (Option CachedRow)}
    {lines : List (List Char)} (state : StateId) (h : Sound t none cached lines)
    (hn : ∀ i, cached[i]? = some none → row + i ≤ last) :
    Sound t (some state) (LineCache.refill t last row state cached lines).1 lines ∧
      Full (LineCache.refill t last row state cached lines).1 := by
  induction lines generalizing row state cached with
  | nil =>
    obtain rfl : cached = [] := List.eq_nil_of_length_eq_zero h.length_eq
    exact ⟨trivial, by simp [LineCache.refill, Full]⟩
  | cons line lines ih =>
    obtain ⟨r, cached, rfl⟩ := List.exists_cons_of_length_eq_add_one h.length_eq
    have htail : Sound t none cached lines := h.2.forget
    have hfirst : ∀ c ∈ some (CachedRow.mk state (t.tokenize state line)),
        (∀ s ∈ some state, c.start = s) ∧ c.row = t.tokenize c.start line := by
      intro c hc
      obtain rfl := Option.some.inj hc
      exact ⟨fun s hs => Option.some.inj hs, rfl⟩
    have hn' : ∀ i, cached[i]? = some none → row + 1 + i ≤ last := fun i hi => by
      have := hn (i + 1) (by simpa using hi)
      omega
    simp only [LineCache.refill]
    split
    · next hstop =>
      -- the next row was scanned from the state now reached, and all behind it has been scanned
      simp only [Bool.and_eq_true, decide_eq_true_eq] at hstop
      obtain ⟨hlast, hstart⟩ := hstop
      have hf : Full cached := full_of_none_le hn' hlast
      refine ⟨⟨hfirst, ?_⟩, ?_⟩
      · cases cached with
        | nil => simp [startsFrom] at hstart
        | cons q qs =>
          obtain ⟨c, rfl⟩ := Option.isSome_iff_exists.1 (hf q (by simp))
          obtain ⟨next, text, rfl⟩ := List.exists_cons_of_length_eq_add_one htail.length_eq.symm
          have hc : c.start = (t.tokenize state line).endState := by
            simpa [startsFrom] using hstart
          refine ⟨fun d hd => ⟨fun s hs => ?_, (htail.1 d hd).2⟩, htail.2⟩
          obtain rfl := Option.some.inj hd
          obtain rfl := Option.some.inj hs
          exact hc
      · intro q hq
        rcases List.mem_cons.1 hq with rfl | hq
        · rfl
        · exact hf q hq
    · obtain ⟨hs, hf⟩ := ih (t.tokenize state line).endState htail hn'
      refine ⟨⟨hfirst, hs⟩, fun q hq => ?_⟩
      rcases List.mem_cons.1 hq with rfl | hq
      · rfl
      · exact hf q hq

/-- The first new row has only scanned rows before it. -/
theorem findIdx?_isNone {rows : List (Option CachedRow)} {first : Nat}
    (h : rows.findIdx? (·.isNone) = some first) :
    rows[first]? = some none ∧ Full (rows.take first) := by
  obtain ⟨hl, hnone, hb⟩ := List.findIdx?_eq_some_iff_getElem.1 h
  refine ⟨?_, fun r hr => ?_⟩
  · rw [List.getElem?_eq_getElem hl, Option.isNone_iff_eq_none.1 hnone]
  · obtain ⟨i, hi, rfl⟩ := List.mem_take_iff_getElem.1 hr
    simpa [← Option.isSome_iff_ne_none] using hb i (by omega)

/-- No row behind the last new one is new. -/
theorem lastNew?_eq_some {rows : List (Option CachedRow)} {last : Nat}
    (h : lastNew? rows = some last) :
    rows[last]? = some none ∧ ∀ i, rows[i]? = some none → i ≤ last := by
  obtain ⟨j, hj, rfl⟩ := Option.map_eq_some_iff.1 h
  obtain ⟨hl, hnone, hb⟩ := List.findIdx?_eq_some_iff_getElem.1 hj
  rw [List.length_reverse] at hl
  refine ⟨?_, fun i hi => Nat.le_of_not_lt fun hlt => ?_⟩
  · rw [List.getElem_reverse, Option.isNone_iff_eq_none] at hnone
    rw [List.getElem?_eq_getElem (by omega), hnone]
  · obtain ⟨hir, hri⟩ := List.getElem?_eq_some_iff.1 hi
    have := hb (rows.length - 1 - i) (by omega)
    rw [List.getElem_reverse] at this
    simp only [show rows.length - 1 - (rows.length - 1 - i) = i by omega, hri] at this
    simp at this

theorem lastNew?_isSome {rows : List (Option CachedRow)} (h : none ∈ rows) :
    ∃ last, lastNew? rows = some last := by
  have : (rows.reverse.findIdx? (·.isNone)).isSome := by
    rw [List.findIdx?_isSome, List.any_eq_true]
    exact ⟨none, by simpa using h, rfl⟩
  obtain ⟨j, hj⟩ := Option.isSome_iff_exists.1 this
  exact ⟨rows.length - 1 - j, by rw [lastNew?, hj]; rfl⟩

/-- The state a row starts in is the one behind the rows before it, when these have been scanned. -/
theorem startState?_eq {c : LineCache} {first : Nat} (hl : first ≤ c.rows.length)
    (hf : Full (c.rows.take first)) :
    c.startState? first = reached (some .start) (c.rows.take first) := by
  have hr : ∀ (rs : List (Option CachedRow)) (r : Option CachedRow) (b : Option StateId),
      reached b (rs ++ [r]) = endOf r := by
    intro rs
    induction rs with
    | nil => intro r b; rfl
    | cons q qs ih => intro r b; exact ih r _
  cases first with
  | zero => rfl
  | succ n =>
    rw [List.take_succ_eq_append_getElem (by omega), hr]
    simp only [startState?, row?, List.getElem?_eq_getElem (show n < c.rows.length by omega),
      Option.join_some, Option.map_map]
    rfl

/-- The state behind scanned rows is known. -/
theorem reached_of_full {rows : List (Option CachedRow)} (hf : Full rows) (s : StateId) :
    ∃ state, reached (some s) rows = some state := by
  induction rows generalizing s with
  | nil => exact ⟨s, rfl⟩
  | cons r rs ih =>
    obtain ⟨c, rfl⟩ := Option.isSome_iff_exists.1 (hf r (by simp))
    exact ih (fun q hq => hf q (by simp [hq])) c.row.endState

/-! ### Updates -/

theorem length_resize (rows : List (Option CachedRow)) (n : Nat) : (resize rows n).length = n := by
  simp only [resize, List.length_append, List.length_take, List.length_replicate]
  omega

/-- The rows an update begins with: as many as there are lines, the dirty one new. -/
def cleared (c : LineCache) (lines : List (List Char)) (firstDirty : Nat) :
    List (Option CachedRow) :=
  (resize c.rows lines.length).set (min firstDirty (lines.length - 1)) none

theorem none_mem_cleared (c : LineCache) {lines : List (List Char)} (hne : lines ≠ [])
    (firstDirty : Nat) : none ∈ c.cleared lines firstDirty := by
  have hpos : 0 < lines.length := List.length_pos_iff.2 hne
  have hd : min firstDirty (lines.length - 1) < (resize c.rows lines.length).length := by
    rw [length_resize]
    omega
  rw [cleared, List.mem_iff_getElem?]
  exact ⟨min firstDirty (lines.length - 1), List.getElem?_set_self hd⟩

/-- An update keeps the rows before the first new one and scans from there on, in the state behind
them, beyond the last new one if need be. -/
theorem update_eq (c : LineCache) {lines : List (List Char)} (hne : lines ≠ [])
    (firstDirty : Nat) : ∃ first last state,
      ((c.cleared lines firstDirty)[first]? = some none ∧
        Full ((c.cleared lines firstDirty).take first)) ∧
      ((c.cleared lines firstDirty)[last]? = some none ∧
        ∀ i, (c.cleared lines firstDirty)[i]? = some none → i ≤ last) ∧
      reached (some .start) ((c.cleared lines firstDirty).take first) = some state ∧
      c.update lines firstDirty =
        ({c with rows := (c.cleared lines firstDirty).take first ++
            (refill c.tokenizer last first state ((c.cleared lines firstDirty).drop first)
              (lines.drop first)).1}, first,
          (refill c.tokenizer last first state ((c.cleared lines firstDirty).drop first)
            (lines.drop first)).2) := by
  have hnew := none_mem_cleared c hne firstDirty
  obtain ⟨last, hlast⟩ := lastNew?_isSome hnew
  obtain ⟨first, hfirst⟩ : ∃ first, (c.cleared lines firstDirty).findIdx? (·.isNone) = some first :=
    Option.isSome_iff_exists.1 (by
      rw [List.findIdx?_isSome, List.any_eq_true]
      exact ⟨none, hnew, rfl⟩)
  obtain ⟨hnone, hf⟩ := findIdx?_isNone hfirst
  obtain ⟨state, hstate⟩ := reached_of_full hf .start
  have hl := Nat.le_of_lt (List.getElem?_eq_some_iff.1 hnone).1
  have hs := startState?_eq (c := {c with rows := c.cleared lines firstDirty}) hl hf
  refine ⟨first, last, state, ⟨hnone, hf⟩, lastNew?_eq_some hlast, hstate, ?_⟩
  rw [hstate] at hs
  unfold cleared at hlast hfirst hs ⊢
  simp only [update, List.isEmpty_iff, hne, if_false, hlast, hfirst, hs, Option.getD_some]

/-- An update of sound rows gives sound rows without gaps. -/
theorem Sound.update {c : LineCache} {lines : List (List Char)} {firstDirty : Nat}
    (hne : lines ≠ []) (h : Sound c.tokenizer (some .start) (c.cleared lines firstDirty) lines) :
    Sound c.tokenizer (some .start) (c.update lines firstDirty).1.rows lines ∧
      Full (c.update lines firstDirty).1.rows := by
  obtain ⟨first, last, state, ⟨-, hf⟩, ⟨-, hlast⟩, hstate, heq⟩ := update_eq c hne firstDirty
  rw [heq]
  have hn : ∀ i, ((c.cleared lines firstDirty).drop first)[i]? = some none → first + i ≤ last :=
    fun i hi => hlast _ (by simpa using hi)
  obtain ⟨hs, hfull⟩ := Sound.refill state (h.drop first) hn
  constructor
  · have hl : ((c.cleared lines firstDirty).take first).length = (lines.take first).length := by
      simp [h.length_eq]
    rw [← hstate] at hs
    have happ := (append_iff hl).2 ⟨h.take first, hs⟩
    rwa [List.take_append_drop] at happ
  · intro r hr
    rcases List.mem_append.1 hr with hr | hr
    · exact hf r hr
    · exact hfull r hr

theorem update_tokenizer (c : LineCache) (lines : List (List Char)) (firstDirty : Nat) :
    (c.update lines firstDirty).1.tokenizer = c.tokenizer := by
  by_cases hne : lines = []
  · simp [LineCache.update, hne]
  · obtain ⟨first, last, state, -, -, -, heq⟩ := update_eq c hne firstDirty
    rw [heq]

/-! ### Rounds of edits -/

/-- Rows of a text that give way to others. -/
structure Replacement where
  row : Nat
  removed : Nat
  inserted : List (List Char)
  deriving Repr, DecidableEq

namespace Replacement

/-- The rows taken out are rows of the text. -/
def Fits (e : Replacement) (lines : List (List Char)) : Prop := e.row + e.removed ≤ lines.length

instance (e : Replacement) (lines : List (List Char)) : Decidable (e.Fits lines) :=
  inferInstanceAs (Decidable (_ ≤ _))

/-- The text behind the replacement. -/
def apply (lines : List (List Char)) (e : Replacement) : List (List Char) :=
  lines.take e.row ++ e.inserted ++ lines.drop (e.row + e.removed)

/-- The replacement mirrored in a cache. -/
def mirror (c : LineCache) (e : Replacement) : LineCache :=
  c.splice e.row e.removed e.inserted.length

/-- Every replacement fits the text that those before it have left. -/
def AllFit : List (List Char) → List Replacement → Prop
  | _, [] => True
  | lines, e :: es => e.Fits lines ∧ AllFit (e.apply lines) es

instance decidableAllFit : (lines : List (List Char)) → (es : List Replacement) →
    Decidable (AllFit lines es)
  | _, [] => isTrue trivial
  | lines, e :: es =>
    have := decidableAllFit (e.apply lines) es
    inferInstanceAs (Decidable (_ ∧ _))

end Replacement

/-- Between two updates a text changes by one replacement, which may be of any kind, or by several
that all put rows in. -/
inductive Round where
  | single (e : Replacement)
  | batch (e : Replacement) (es : List Replacement)
  deriving Repr, DecidableEq

namespace Round

def edits : Round → List Replacement
  | single e => [e]
  | batch e es => e :: es

/-- The first row that is edited. -/
def firstRow : Round → Nat
  | single e => e.row
  | batch e es => es.foldl (fun row d => min row d.row) e.row

def Allowed (lines : List (List Char)) : Round → Prop
  | single e => e.Fits lines
  | batch e es => Replacement.AllFit lines (e :: es) ∧ ∀ d ∈ e :: es, d.inserted ≠ []

instance (lines : List (List Char)) : (r : Round) → Decidable (r.Allowed lines)
  | single e => inferInstanceAs (Decidable (e.Fits lines))
  | batch _ _ => inferInstanceAs (Decidable (_ ∧ _))

/-- The text behind the round. -/
def text (lines : List (List Char)) (r : Round) : List (List Char) :=
  r.edits.foldl Replacement.apply lines

/-- The cache behind the round: every edit is mirrored, then one update follows. -/
def play (c : LineCache) (lines : List (List Char)) (r : Round) : LineCache :=
  ((r.edits.foldl Replacement.mirror c).update (r.text lines) r.firstRow).1

/-- A cache and its text behind rounds. -/
def playAll (c : LineCache) (lines : List (List Char)) : List Round → LineCache × List (List Char)
  | [] => (c, lines)
  | r :: rs => playAll (r.play c lines) (r.text lines) rs

/-- Every round is allowed on the text that those before it have left. -/
def AllAllowed (lines : List (List Char)) : List Round → Prop
  | [] => True
  | r :: rs => r.Allowed lines ∧ AllAllowed (r.text lines) rs

instance decidableAllAllowed : (lines : List (List Char)) → (rounds : List Round) →
    Decidable (AllAllowed lines rounds)
  | _, [] => isTrue trivial
  | lines, r :: rs =>
    have := decidableAllAllowed (r.text lines) rs
    inferInstanceAs (Decidable (_ ∧ _))

end Round

/-! ### What a round keeps -/

theorem resize_self {rows : List (Option CachedRow)} {n : Nat} (h : rows.length = n) :
    resize rows n = rows := by
  simp [resize, ← h]

theorem blank_replicate (n : Nat) : Blank (List.replicate n none) :=
  fun _ hr => List.eq_of_mem_replicate hr

theorem Blank.mirror {c : LineCache} (h : Blank c.rows) (e : Replacement) :
    Blank (e.mirror c).rows := by
  intro r hr
  simp only [Replacement.mirror, splice, List.mem_append] at hr
  rcases hr with (hr | hr) | hr
  · exact h r (List.mem_of_mem_take hr)
  · exact blank_replicate _ r hr
  · exact h r (List.mem_of_mem_drop hr)

theorem Blank.cleared {c : LineCache} (h : Blank c.rows) (lines : List (List Char)) (n : Nat) :
    Blank (c.cleared lines n) := by
  intro r hr
  rcases List.mem_or_eq_of_mem_set hr with hr | hr
  · simp only [resize, List.mem_append] at hr
    rcases hr with hr | hr
    · exact h r (List.mem_of_mem_take hr)
    · exact blank_replicate _ r hr
  · exact hr

theorem reached_replicate (before : Option StateId) (n : Nat) :
    reached before (List.replicate (n + 1) none) = none := by
  induction n generalizing before with
  | zero => rfl
  | succ n ih => exact ih none

/-- A replacement that puts rows in keeps sound rows sound: the new ones stand between what was not
side by side. -/
theorem Sound.mirror {c : LineCache} {lines : List (List Char)} {e : Replacement}
    (h : Sound c.tokenizer (some .start) c.rows lines) (hi : e.inserted ≠ []) :
    Sound c.tokenizer (some .start) (e.mirror c).rows (e.apply lines) := by
  obtain ⟨line, more, hcons⟩ := List.exists_cons_of_ne_nil hi
  have hlen : (List.replicate e.inserted.length (none : Option CachedRow)).length =
      e.inserted.length := List.length_replicate
  have hrow : (c.rows.take e.row).length = (lines.take e.row).length := by simp [h.length_eq]
  have hfront := (append_iff hrow).2
    ⟨h.take e.row, of_blank (blank_replicate e.inserted.length) hlen⟩
  refine (append_iff (by simp [h.length_eq])).2 ⟨hfront, ?_⟩
  have hnone : ∀ (b : Option StateId) (rs : List (Option CachedRow)),
      reached b (rs ++ List.replicate e.inserted.length none) = none := by
    intro b rs
    induction rs generalizing b with
    | nil => rw [hcons]; exact reached_replicate b _
    | cons r rs ih => exact ih _
  rw [hnone]
  exact h.drop _

theorem Sound.mirrorAll {c : LineCache} {lines : List (List Char)} {es : List Replacement}
    (h : Sound c.tokenizer (some .start) c.rows lines) (hi : ∀ e ∈ es, e.inserted ≠ []) :
    Sound c.tokenizer (some .start) (es.foldl Replacement.mirror c).rows
      (es.foldl Replacement.apply lines) := by
  induction es generalizing c lines with
  | nil => exact h
  | cons e es ih =>
    exact ih (c := e.mirror c) (h.mirror (hi e (by simp))) fun d hd => hi d (by simp [hd])

/-- A single replacement of any kind leaves sound rows once its row is cleared. -/
theorem Sound.cleared_mirror {c : LineCache} {lines : List (List Char)} {e : Replacement}
    (h : Sound c.tokenizer (some .start) c.rows lines) (hf : e.Fits lines) :
    Sound c.tokenizer (some .start) ((e.mirror c).cleared (e.apply lines) e.row)
      (e.apply lines) := by
  by_cases hi : e.inserted = []
  · have hj := (h.take e.row).join (h.drop (e.row + e.removed))
    have hrow : (c.rows.take e.row).length = e.row := by
      rw [List.length_take, h.length_eq]
      exact Nat.min_eq_left (Nat.le_trans (Nat.le_add_right _ _) hf)
    have hmirror : (e.mirror c).rows = c.rows.take e.row ++ c.rows.drop (e.row + e.removed) := by
      simp [Replacement.mirror, splice, hi]
    have happly : e.apply lines = lines.take e.row ++ lines.drop (e.row + e.removed) := by
      simp [Replacement.apply, hi]
    rw [hrow] at hj
    rw [cleared, hmirror, happly, resize_self (by simp [h.length_eq])]
    exact hj
  · have hs := h.mirror hi
    rw [cleared, resize_self hs.length_eq]
    exact hs.set_none _

/-- A cache in step with a text: its rows are sound and without gaps. -/
def InStep (c : LineCache) (lines : List (List Char)) : Prop :=
  Sound c.tokenizer (some .start) c.rows lines ∧ Full c.rows

theorem mirrorAll_tokenizer (c : LineCache) (es : List Replacement) :
    (es.foldl Replacement.mirror c).tokenizer = c.tokenizer := by
  induction es generalizing c with
  | nil => rfl
  | cons e es ih => exact ih (e.mirror c)

theorem Blank.mirrorAll {c : LineCache} (h : Blank c.rows) (es : List Replacement) :
    Blank (es.foldl Replacement.mirror c).rows := by
  induction es generalizing c with
  | nil => exact h
  | cons e es ih => exact ih (h.mirror e)

/-- Behind the edits of a round the rows an update begins with are sound. -/
theorem Round.sound_cleared {c : LineCache} {lines : List (List Char)} {r : Round}
    (h : InStep c lines ∨ Blank c.rows) (ha : r.Allowed lines) :
    Sound c.tokenizer (some .start)
      ((r.edits.foldl Replacement.mirror c).cleared (r.text lines) r.firstRow) (r.text lines) := by
  rcases h with h | h
  · cases r with
    | single e => exact h.1.cleared_mirror ha
    | batch e es =>
      have hs : Sound c.tokenizer (some .start)
          ((batch e es).edits.foldl Replacement.mirror c).rows ((batch e es).text lines) :=
        Sound.mirrorAll h.1 ha.2
      rw [cleared, resize_self hs.length_eq]
      exact hs.set_none _
  · refine Sound.of_blank ((h.mirrorAll r.edits).cleared _ _) ?_
    rw [cleared, List.length_set, length_resize]

/-- A round brings a cache in step with the new text. -/
theorem Round.inStep_play {c : LineCache} {lines : List (List Char)} {r : Round}
    (h : InStep c lines ∨ Blank c.rows) (ha : r.Allowed lines) :
    InStep (r.play c lines) (r.text lines) := by
  have hs := Round.sound_cleared h ha
  have ht : (r.play c lines).tokenizer = c.tokenizer := by
    rw [Round.play, update_tokenizer, mirrorAll_tokenizer]
  rw [InStep, ht]
  by_cases hne : r.text lines = []
  · simp [Round.play, LineCache.update, hne, resize, Sound, Full]
  · rw [← mirrorAll_tokenizer c r.edits] at hs ⊢
    exact Sound.update hne hs

theorem Round.inStep_playAll {c : LineCache} {lines : List (List Char)} {rounds : List Round}
    (h : InStep c lines ∨ Blank c.rows) (hne : rounds ≠ []) (ha : AllAllowed lines rounds) :
    InStep (playAll c lines rounds).1 (playAll c lines rounds).2 := by
  induction rounds generalizing c lines with
  | nil => exact absurd rfl hne
  | cons r rs ih =>
    have hr := Round.inStep_play h ha.1
    cases rs with
    | nil => exact hr
    | cons q qs => exact ih (.inl hr) (by simp) ha.2

theorem Round.playAll_tokenizer (c : LineCache) (lines : List (List Char)) (rounds : List Round) :
    (playAll c lines rounds).1.tokenizer = c.tokenizer := by
  induction rounds generalizing c lines with
  | nil => rfl
  | cons r rs ih => rw [playAll, ih, play, update_tokenizer, mirrorAll_tokenizer]

/-- What a cache in step with a text answers for its rows. -/
theorem InStep.row?_eq {c : LineCache} {lines : List (List Char)} (h : InStep c lines) (row : Nat) :
    c.row? row = (c.tokenizer.tokenizeLines lines)[row]? := by
  have hr := congrArg (·[row]?) (h.1.rows_eq h.2)
  simp only [List.getElem?_map] at hr
  rw [Tokenizer.tokenizeLines]
  cases hc : c.rows[row]? with
  | none =>
    rw [hc, Option.map_none, eq_comm, Option.map_eq_none_iff] at hr
    simp [row?, hc, hr]
  | some r =>
    rw [hc, Option.map_some, eq_comm, Option.map_eq_some_iff] at hr
    obtain ⟨found, hfound, hr⟩ := hr
    simp [row?, hc, hfound, hr]

/-- **After every round of edits a cache holds what scanning the text from scratch gives**, row by
row, whatever the text was before the first round, on which the cache had nothing yet. -/
theorem row?_playAll (t : Tokenizer) (lines : List (List Char)) (rounds : List Round)
    (hne : rounds ≠ []) (ha : Round.AllAllowed lines rounds) :
    (Round.playAll (ofTokenizer t) lines rounds).1.size =
        (Round.playAll (ofTokenizer t) lines rounds).2.length ∧
      ∀ row, (Round.playAll (ofTokenizer t) lines rounds).1.row? row =
        (t.tokenizeLines (Round.playAll (ofTokenizer t) lines rounds).2)[row]? := by
  have hblank : Blank (ofTokenizer t).rows := fun r hr => absurd hr (by simp [ofTokenizer])
  have h := Round.inStep_playAll (.inr hblank) hne ha
  refine ⟨h.1.length_eq, fun row => ?_⟩
  rw [h.row?_eq, Round.playAll_tokenizer]
  rfl

/-- A comment is opened above scanned rows, its end is taken out, and two rows are then replaced
before the cache is updated again. -/
theorem row?_playAll_comment :
    let rounds : List Round :=
      [.single ⟨0, 0, [['a'], ['b'], ['#', '#', '#'], ['c']]⟩, .single ⟨1, 0, [['#', '#', '#']]⟩,
        .single ⟨3, 1, []⟩, .batch ⟨3, 1, [['d'], ['e']]⟩ [⟨0, 1, [['f']]⟩]]
    rounds ≠ [] ∧ Round.AllAllowed [] rounds ∧
      ∀ row, (Round.playAll (ofTokenizer Coffee.tokenizer) [] rounds).1.row? row =
        (Coffee.tokenizer.tokenizeLines [['f'], ['#', '#', '#'], ['b'], ['d'], ['e']])[row]? :=
  ⟨by decide, by decide, (row?_playAll Coffee.tokenizer [] _ (by decide) (by decide)).2⟩

end CodeEditing.Lexing.LineCache
