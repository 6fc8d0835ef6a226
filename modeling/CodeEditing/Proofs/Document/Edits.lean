import CodeEditing.Document.Basic

/-! What edits of a document do.

What an edit does to the lines depends on the lines alone (`insert_lines_congr`,
`remove_lines_congr`), and what it tells are positions that lie in the document already. As long as no
text has a carriage return, lines stay free of line ends (`Clean`), and so the text they make is cut as
it was joined. Setting a text leaves its lines (`setValue_lines`). -/
namespace CodeEditing.Text

theorem mem_joinWith {sep c : Char} {lines : List (List Char)} (h : c ∈ lines.flatten) :
    c ∈ joinWith sep lines := by
  induction lines with
  | nil => exact h
  | cons l ls ih =>
    cases ls with
    | nil => simpa using h
    | cons m ms =>
      rw [joinWith_cons (by simp)]
      rcases List.mem_append.1 (List.flatten_cons ▸ h) with hc | hc
      · exact List.mem_append_left _ hc
      · exact List.mem_append_right _ (List.mem_cons_of_mem _ (ih hc))

theorem mem_of_mem_joinWith {sep c : Char} {lines : List (List Char)}
    (h : c ∈ joinWith sep lines) : c = sep ∨ c ∈ lines.flatten := by
  induction lines with
  | nil => exact .inr h
  | cons l ls ih =>
    cases ls with
    | nil => exact .inr (by simpa using h)
    | cons m ms =>
      rw [joinWith_cons (by simp)] at h
      rw [List.flatten_cons]
      rcases List.mem_append.1 h with hc | hc
      · exact .inr (List.mem_append_left _ hc)
      · rcases List.mem_cons.1 hc with rfl | hc
        · exact .inl rfl
        · exact (ih hc).imp_right (List.mem_append_right _)

theorem splitLines_of_no_return {cs : List Char} (h : '\r' ∉ cs) :
    splitLines cs = cutAt '\n' cs := by
  rw [splitLines]
  have hl : ∀ l ∈ cutAt '\n' cs, dropReturn l = l := by
    intro l hl
    refine dropReturn_eq_self fun hr => h ?_
    rw [← joinWith_cutAt '\n' cs]
    exact mem_joinWith (List.mem_flatten.2 ⟨l, hl, List.mem_of_getLast? hr⟩)
  exact (List.map_congr_left hl).trans (List.map_id _)

/-- Lines of a text without carriage returns are joined to that text. -/
theorem joinLines_splitLines {cs : List Char} (h : '\r' ∉ cs) : joinLines (splitLines cs) = cs := by
  rw [splitLines_of_no_return h, joinLines_cutAt]

end CodeEditing.Text

namespace CodeEditing.Document

namespace TextDocument
variable {d e : TextDocument} {p : Position} {range : Range} {text : List Char}

/-! ### What edits depend on -/

theorem clamp_congr (h : d.lines = e.lines) : d.clamp p = e.clamp p := by
  simp only [clamp, endPosition, line, h]

theorem clamp_endPosition (d : TextDocument) : d.clamp d.endPosition = d.endPosition := by
  rw [clamp]
  split
  · rfl
  · have hw := Text.isBoundary_width_append (d.line (d.lines.length - 1)) []
    rw [List.append_nil] at hw
    rw [endPosition]
    exact congrArg (Position.mk _) hw

theorem clamp_origin (h : d.lines ≠ []) : d.clamp .origin = .origin := by
  have hp : ¬ Position.origin.row ≥ d.lines.length := by
    have := List.length_pos_iff.2 h
    simp only [Position.origin]
    omega
  rw [clamp, if_neg hp]
  exact congrArg (Position.mk 0) (Nat.le_zero.1 (Text.floorColumn_le 0 _))

/-- A position that has been clamped stays where it is. -/
theorem clamp_clamp (d : TextDocument) (p : Position) : d.clamp (d.clamp p) = d.clamp p := by
  by_cases hp : p.row ≥ d.lines.length
  · have hend : d.clamp p = d.endPosition := by rw [clamp, if_pos hp]
    rw [hend, clamp_endPosition]
  · have hrow : d.clamp p = ⟨p.row, Text.floorColumn p.column (d.line p.row)⟩ := by
      rw [clamp, if_neg hp]
    rw [hrow, clamp, if_neg hp]
    exact congrArg (Position.mk _) (Text.isBoundary_floorColumn _ _)

/-- Putting in at a position is putting in at the nearest one in the document. -/
theorem insert_clamp (d : TextDocument) (p : Position) (text : List Char) :
    d.insert (d.clamp p) text = d.insert p text := by
  unfold insert
  rw [clamp_clamp]

theorem insert_lines_congr (h : d.lines = e.lines) :
    (d.insert p text).doc.lines = (e.insert p text).doc.lines := by
  unfold insert
  rw [clamp_congr h]
  split
  · exact h
  · simp only [line, h]

theorem remove_lines_congr (h : d.lines = e.lines) :
    (d.remove range).doc.lines = (e.remove range).doc.lines := by
  unfold remove
  rw [clamp_congr h, clamp_congr h]
  dsimp only
  split
  · exact h
  · simp only [line, h]

/-- The range between two positions in the document. -/
def clampRange (d : TextDocument) (range : Range) : Range :=
  .ofPoints (d.clamp range.start) (d.clamp range.stop)

theorem clampRange_clampRange (d : TextDocument) (range : Range) :
    d.clampRange (d.clampRange range) = d.clampRange range := by
  have hle := Range.ofPoints_start_le_stop (d.clamp range.start) (d.clamp range.stop)
  have hends : ∀ q, q = (d.clampRange range).start ∨ q = (d.clampRange range).stop →
      d.clamp q = q := by
    intro q hq
    have hmem : q = d.clamp range.start ∨ q = d.clamp range.stop := by
      unfold clampRange Range.ofPoints at hq
      split at hq
      · exact hq
      · exact hq.symm
    rcases hmem with rfl | rfl <;> exact clamp_clamp _ _
  rw [clampRange, hends _ (.inl rfl), hends _ (.inr rfl), Range.ofPoints]
  exact if_pos hle

theorem remove_clampRange (d : TextDocument) (range : Range) :
    d.remove (d.clampRange range) = d.remove range := by
  have h := clampRange_clampRange d range
  unfold clampRange at h ⊢
  unfold remove
  rw [h]

/-! ### What edits tell -/

theorem insert_deltas (d : TextDocument) (p : Position) (text : List Char) :
    (d.insert p text).deltas =
      if text = [] then []
      else [⟨.insert, ⟨d.clamp p, (d.insert p text).position⟩, Text.splitLines text⟩] := by
  unfold insert
  split <;> rfl

theorem remove_deltas (d : TextDocument) (range : Range) :
    (d.remove range).deltas =
      if (d.clampRange range).isEmpty then []
      else [⟨.remove, d.clampRange range, piecesBetween d.lines (d.clampRange range)⟩] := by
  unfold remove clampRange
  dsimp only
  split <;> rfl

theorem insert_nil (d : TextDocument) (p : Position) : (d.insert p []).doc = d := by
  rw [insert, if_pos rfl]

theorem remove_empty (h : (d.clampRange range).isEmpty) : (d.remove range).doc = d := by
  unfold clampRange at h
  rw [remove, if_pos h]

end TextDocument

/-! ### Lines without line ends -/

/-- Lines as a text without carriage returns is cut into. -/
structure Clean (lines : List Line) : Prop where
  nonempty : lines ≠ []
  no_feed : '\n' ∉ lines.flatten
  no_return : '\r' ∉ lines.flatten

namespace Clean
variable {lines : List Line} {text : List Char}

theorem splitLines (h : '\r' ∉ text) : Clean (Text.splitLines text) where
  nonempty := Text.splitLines_ne_nil text
  no_feed := by
    rw [Text.splitLines_of_no_return h]
    intro hc
    obtain ⟨l, hl, hc⟩ := List.mem_flatten.1 hc
    exact Text.not_mem_of_mem_cutAt hl hc
  no_return := by
    intro hc
    rw [← Text.joinLines_splitLines h] at h
    exact h (Text.mem_joinWith hc)

/-- Such lines come back from the text they are joined to. -/
theorem splitLines_joinLines (h : Clean lines) :
    Text.splitLines (Text.joinLines lines) = lines :=
  Text.splitLines_joinLines h.nonempty fun l hl =>
    ⟨fun hc => h.no_feed (List.mem_flatten.2 ⟨l, hl, hc⟩),
      fun hc => h.no_return (List.mem_flatten.2 ⟨l, hl, hc⟩)⟩

end Clean

namespace TextDocument
variable {d : TextDocument} {c : Char} {text : List Char}

theorem flatten_weave (front back : Line) (pieces : List Line) :
    (weave front back pieces).flatten = front ++ pieces.flatten ++ back := by
  induction pieces generalizing front with
  | nil => simp [weave]
  | cons piece more ih =>
    cases more with
    | nil => simp [weave]
    | cons m ms => simp only [weave, List.flatten_cons, ih, List.nil_append, List.append_assoc]

theorem weave_ne_nil (front back : Line) (pieces : List Line) : weave front back pieces ≠ [] := by
  cases pieces with
  | nil => exact List.cons_ne_nil _ _
  | cons piece more => cases more <;> exact List.cons_ne_nil _ _

theorem mem_flatten_of_mem_line {row : Nat} (h : c ∈ d.line row) : c ∈ d.lines.flatten := by
  unfold line lineAt at h
  rw [List.getD_eq_getElem?_getD] at h
  cases hr : d.lines[row]? with
  | none =>
    rw [hr] at h
    exact absurd h List.not_mem_nil
  | some l =>
    rw [hr] at h
    exact List.mem_flatten.2 ⟨l, List.mem_of_getElem? hr, h⟩

theorem mem_flatten_of_mem_take {n : Nat} (h : c ∈ (d.lines.take n).flatten) :
    c ∈ d.lines.flatten := by
  obtain ⟨l, hl, hc⟩ := List.mem_flatten.1 h
  exact List.mem_flatten.2 ⟨l, List.mem_of_mem_take hl, hc⟩

theorem mem_flatten_of_mem_drop {n : Nat} (h : c ∈ (d.lines.drop n).flatten) :
    c ∈ d.lines.flatten := by
  obtain ⟨l, hl, hc⟩ := List.mem_flatten.1 h
  exact List.mem_flatten.2 ⟨l, List.mem_of_mem_drop hl, hc⟩

theorem mem_of_mem_before {n : Nat} {l : Line} (h : c ∈ Text.before n l) : c ∈ l := by
  rw [← Text.before_append_after n l]
  exact List.mem_append_left _ h

theorem mem_of_mem_after {n : Nat} {l : Line} (h : c ∈ Text.after n l) : c ∈ l := by
  rw [← Text.before_append_after n l]
  exact List.mem_append_right _ h

/-- Putting a text in brings in no characters but those of its lines. -/
theorem mem_insert_lines {p : Position} (h : c ∈ (d.insert p text).doc.lines.flatten) :
    c ∈ d.lines.flatten ∨ c ∈ (Text.splitLines text).flatten := by
  unfold insert at h
  dsimp only at h
  split at h
  · exact .inl h
  · simp only [List.flatten_append, flatten_weave, List.mem_append] at h
    obtain (h | (h | h) | h) | h := h
    · exact .inl (mem_flatten_of_mem_take h)
    · exact .inl (mem_flatten_of_mem_line (mem_of_mem_before h))
    · exact .inr h
    · exact .inl (mem_flatten_of_mem_line (mem_of_mem_after h))
    · exact .inl (mem_flatten_of_mem_drop h)

/-- Taking a text out brings in no characters. -/
theorem mem_remove_lines {range : Range} (h : c ∈ (d.remove range).doc.lines.flatten) :
    c ∈ d.lines.flatten := by
  unfold remove at h
  dsimp only at h
  split at h
  · exact h
  · simp only [List.flatten_append, List.flatten_cons, List.mem_append] at h
    obtain h | (h | h) | h := h
    · exact mem_flatten_of_mem_take h
    · exact mem_flatten_of_mem_line (mem_of_mem_before h)
    · exact mem_flatten_of_mem_line (mem_of_mem_after h)
    · exact mem_flatten_of_mem_drop h

theorem insert_clean (h : Clean d.lines) (p : Position) (ht : '\r' ∉ text) :
    Clean (d.insert p text).doc.lines where
  nonempty := by
    unfold insert
    dsimp only
    split
    · exact h.nonempty
    · simp [weave_ne_nil]
  no_feed hc := (mem_insert_lines hc).elim h.no_feed (Clean.splitLines ht).no_feed
  no_return hc := (mem_insert_lines hc).elim h.no_return (Clean.splitLines ht).no_return

theorem remove_clean (h : Clean d.lines) (range : Range) : Clean (d.remove range).doc.lines where
  nonempty := by
    unfold remove
    dsimp only
    split
    · exact h.nonempty
    · simp
  no_feed hc := h.no_feed (mem_remove_lines hc)
  no_return hc := h.no_return (mem_remove_lines hc)

end TextDocument

/-! ### Taking over a text -/

namespace TextDocument

/-- The range of the whole text. -/
theorem clampRange_whole {d : TextDocument} (h : d.lines ≠ []) :
    d.clampRange (.ofPoints .origin d.endPosition) = ⟨.origin, d.endPosition⟩ := by
  have hle : Position.origin ≤ d.endPosition := by
    rw [Position.le_def, endPosition]
    simp only [Position.origin]
    omega
  have hr : Range.ofPoints .origin d.endPosition = ⟨.origin, d.endPosition⟩ := if_pos hle
  rw [hr, clampRange, clamp_origin h, clamp_endPosition, hr]

theorem remove_whole {d : TextDocument} (h : d.lines ≠ []) :
    (d.remove (.ofPoints .origin d.endPosition)).doc.lines = [[]] := by
  have hw := clampRange_whole h
  have hlen := List.length_pos_iff.2 h
  by_cases he : Range.isEmpty ⟨.origin, d.endPosition⟩
  · rw [remove_empty (hw ▸ he)]
    have hend : Position.origin = d.endPosition := eq_of_beq he
    rw [endPosition, Position.origin, Position.mk.injEq] at hend
    obtain ⟨l, hl⟩ : ∃ l, d.lines = [l] := List.length_eq_one_iff.1 (by omega)
    have hline : d.line (d.lines.length - 1) = l := by simp [line, lineAt, hl]
    have hnil : l = [] := Text.width_eq_zero.1 (by rw [hend.2, hline])
    rw [hl, hnil]
  · rw [clampRange] at hw
    rw [remove, hw, if_neg he]
    have hafter : Text.after (Text.width (d.line (d.lines.length - 1)))
        (d.line (d.lines.length - 1)) = [] := by
      have := Text.after_width (d.line (d.lines.length - 1)) []
      rwa [List.append_nil] at this
    have hdrop : d.lines.length - 1 + 1 = d.lines.length := by omega
    simp only [endPosition, Position.origin, Text.before_zero, hafter, hdrop, List.take_zero,
      List.drop_length, List.nil_append]

theorem weave_nil_nil {pieces : List Line} (h : pieces ≠ []) : weave [] [] pieces = pieces := by
  induction pieces with
  | nil => exact absurd rfl h
  | cons piece more ih =>
    cases more with
    | nil => simp [weave]
    | cons m ms => rw [weave, ih (by simp), List.nil_append]; simp

/-- A text put into an empty document is the whole of it. -/
theorem insert_into_empty {d : TextDocument} (h : d.lines = [[]]) (text : List Char) :
    (d.insert .origin text).doc.lines = Text.splitLines text := by
  by_cases ht : text = []
  · subst ht
    rw [insert_nil, h]
    rfl
  · rw [insert, clamp_origin (by simp [h]), if_neg ht]
    simp only [h, Position.origin, line, lineAt, List.take_zero, List.nil_append,
      List.getD_cons_zero, Text.before_zero, Text.after_zero]
    rw [weave_nil_nil (Text.splitLines_ne_nil text)]
    exact List.append_nil _

/-- Taking over a text leaves its lines, whatever was there before. -/
theorem setValue_lines {d : TextDocument} (h : d.lines ≠ []) (text : List Char) :
    (d.setValue text).doc.lines = Text.splitLines text :=
  insert_into_empty (remove_whole h) text

end TextDocument

end CodeEditing.Document
