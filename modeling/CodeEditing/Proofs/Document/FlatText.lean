import CodeEditing.Proofs.Document.Use

/-! A document as one text.

The rows of a document are the text `value`, with a line feed between neighbours, and a position in
the document is an offset into that text. A `Cut` is a position with what stands around it: the rows
above and below, and the two parts of its own row. Putting pieces in at a cut gives a cut behind them
(`Cut.behind`), and of two cuts the one that is read later goes on where the other one ends
(`Cut.front_of_le`). So an edit is what it is on one text: what is between two offsets is taken out,
a text less its carriage returns at line ends is put in (`edits_flat_text`). -/
namespace CodeEditing.Text

/-! ### Line ends -/

/-- A text without the carriage returns of its line ends: one right before each line feed, and one at
the very end. -/
def dropReturns : List Char → List Char
  | [] => []
  | ['\r'] => []
  | '\r' :: '\n' :: cs => '\n' :: dropReturns cs
  | c :: cs => c :: dropReturns cs

theorem joinLines_cons {line : List Char} {more : List (List Char)} (h : more ≠ []) :
    joinLines (line :: more) = line ++ '\n' :: joinLines more := joinWith_cons h

theorem joinLines_cons_char (c : Char) (line : List Char) (more : List (List Char)) :
    joinLines ((c :: line) :: more) = c :: joinLines (line :: more) := by
  cases more <;> rfl

/-- A piece without a line feed in it, up to the first one, is a line. -/
theorem splitLines_append_feed {piece : List Char} (h : '\n' ∉ piece) (cs : List Char) :
    splitLines (piece ++ '\n' :: cs) = dropReturn piece :: splitLines cs := by
  rw [splitLines, cutAt_append_cons h]
  rfl

theorem dropReturn_cons {c : Char} {cs : List Char} (h : c = '\r' → cs ≠ []) :
    dropReturn (c :: cs) = c :: dropReturn cs := by
  rw [dropReturn]
  rintro rfl rfl
  exact h rfl rfl

/-- The lines of a text make the text up, but for the carriage returns of its line ends. -/
theorem joinLines_splitLines_eq (cs : List Char) : joinLines (splitLines cs) = dropReturns cs := by
  fun_induction dropReturns cs with
  | case1 => rfl
  | case2 => rfl
  | case3 cs ih =>
    have hfeed : '\n' ∉ ['\r'] := by decide
    have hcut : splitLines ('\r' :: '\n' :: cs) = [] :: splitLines cs :=
      splitLines_append_feed hfeed cs
    rw [hcut, joinLines_cons (splitLines_ne_nil cs), ih, List.nil_append]
  | case4 c cs hlast hfeed ih =>
    by_cases hc : c = '\n'
    · subst hc
      have hcut : splitLines ('\n' :: cs) = [] :: splitLines cs :=
        splitLines_append_feed List.not_mem_nil cs
      rw [hcut, joinLines_cons (splitLines_ne_nil cs), ih, List.nil_append]
    · cases hp : cutAt '\n' cs with
      | nil => exact absurd hp (cutAt_ne_nil _ _)
      | cons piece more =>
        have hpiece : c = '\r' → piece ≠ [] := by
          rintro rfl rfl
          have hcs := joinWith_cutAt '\n' cs
          rw [hp] at hcs
          cases more with
          | nil => exact hlast rfl hcs.symm
          | cons m ms => exact hfeed _ rfl hcs.symm
        have hline : splitLines (c :: cs) = (c :: dropReturn piece) :: more.map dropReturn := by
          rw [splitLines, cutAt, hp]
          simp only [if_neg hc, List.map_cons, dropReturn_cons hpiece]
        rw [splitLines, hp, List.map_cons] at ih
        rw [hline, joinLines_cons_char, ih]

/-! ### Rows among others -/

/-- Rows with a line feed behind each. -/
def rowsAbove (lines : List (List Char)) : List Char := lines.flatMap (· ++ ['\n'])

/-- Rows with a line feed in front of each. -/
def rowsBelow (lines : List (List Char)) : List Char := lines.flatMap ('\n' :: ·)

@[simp] theorem rowsAbove_nil : rowsAbove [] = [] := rfl

@[simp] theorem rowsBelow_nil : rowsBelow [] = [] := rfl

@[simp] theorem rowsAbove_append (a b : List (List Char)) :
    rowsAbove (a ++ b) = rowsAbove a ++ rowsAbove b := List.flatMap_append

@[simp] theorem rowsAbove_cons (l : List Char) (ls : List (List Char)) :
    rowsAbove (l :: ls) = l ++ '\n' :: rowsAbove ls := by
  simp [rowsAbove]

@[simp] theorem rowsBelow_cons (l : List Char) (ls : List (List Char)) :
    rowsBelow (l :: ls) = '\n' :: (l ++ rowsBelow ls) := by
  simp [rowsBelow]

theorem joinLines_cons_eq (line : List Char) (below : List (List Char)) :
    joinLines (line :: below) = line ++ rowsBelow below := by
  induction below generalizing line with
  | nil => simp [joinLines]
  | cons m ms ih => rw [joinLines_cons (by simp), ih, rowsBelow_cons]

theorem joinLines_around (above : List (List Char)) (line : List Char)
    (below : List (List Char)) :
    joinLines (above ++ line :: below) = rowsAbove above ++ line ++ rowsBelow below := by
  induction above with
  | nil => rw [List.nil_append, joinLines_cons_eq, rowsAbove_nil, List.nil_append]
  | cons a as ih =>
    rw [List.cons_append, joinLines_cons (by simp), ih, rowsAbove_cons]
    simp

end CodeEditing.Text

namespace CodeEditing.Document

/-! ### Cuts -/

/-- The offset of a position into the text that lines make up: the rows above it with a line feed
behind each, and its column. -/
def offset (lines : List Line) (p : Position) : Nat :=
  Text.width (Text.rowsAbove (lines.take p.row)) + p.column

/-- Lines cut in two within a row: the rows above, the parts of the row to the left and to the right,
and the rows below. -/
structure Cut where
  above : List Line
  left : Line
  right : Line
  below : List Line

namespace Cut

def lines (c : Cut) : List Line := c.above ++ (c.left ++ c.right) :: c.below

/-- The position of a cut. -/
def position (c : Cut) : Position := ⟨c.above.length, Text.width c.left⟩

/-- The text in front of a cut. -/
def front (c : Cut) : List Char := Text.rowsAbove c.above ++ c.left

/-- The text behind a cut. -/
def back (c : Cut) : List Char := c.right ++ Text.rowsBelow c.below

variable (c : Cut)

theorem take_lines : c.lines.take c.position.row = c.above := List.take_left

theorem drop_lines : c.lines.drop (c.position.row + 1) = c.below := by
  rw [lines, position, ← List.drop_drop, List.drop_left]
  rfl

theorem lineAt_lines : lineAt c.lines c.position.row = c.left ++ c.right := by
  simp [lineAt, lines, position]

theorem before_lines :
    Text.before c.position.column (lineAt c.lines c.position.row) = c.left := by
  rw [lineAt_lines, position, Text.before_width]

theorem after_lines :
    Text.after c.position.column (lineAt c.lines c.position.row) = c.right := by
  rw [lineAt_lines, position, Text.after_width]

theorem joinLines_lines : Text.joinLines c.lines = c.front ++ c.back := by
  rw [lines, Text.joinLines_around, front, back]
  simp only [List.append_assoc]

theorem offset_lines : offset c.lines c.position = Text.width c.front := by
  rw [offset, take_lines, front, Text.width_append, position]

theorem before_offset :
    Text.before (offset c.lines c.position) (Text.joinLines c.lines) = c.front := by
  rw [offset_lines, joinLines_lines, Text.before_width]

theorem after_offset :
    Text.after (offset c.lines c.position) (Text.joinLines c.lines) = c.back := by
  rw [offset_lines, joinLines_lines, Text.after_width]

end Cut

/-- A position in lines is where a cut can be made. -/
def LiesIn (p : Position) (lines : List Line) : Prop :=
  p.row < lines.length ∧ Text.IsBoundary p.column (lineAt lines p.row)

theorem Cut.liesIn (c : Cut) : LiesIn c.position c.lines := by
  refine ⟨?_, ?_⟩
  · simp [lines, position]
  · rw [lineAt_lines]
    exact Text.isBoundary_width_append _ _

theorem LiesIn.exists_cut {p : Position} {lines : List Line} (h : LiesIn p lines) :
    ∃ c : Cut, c.lines = lines ∧ c.position = p := by
  refine ⟨⟨lines.take p.row, Text.before p.column (lineAt lines p.row),
    Text.after p.column (lineAt lines p.row), lines.drop (p.row + 1)⟩, ?_, ?_⟩
  · have hlt : p.row < lines.length := h.1
    have hrow : lineAt lines p.row = lines[p.row] := by simp [lineAt, hlt]
    rw [Cut.lines, Text.before_append_after, hrow, ← List.drop_eq_getElem_cons hlt,
      List.take_append_drop]
  · have hlen : (lines.take p.row).length = p.row := List.length_take_of_le (Nat.le_of_lt h.1)
    have hcol : Text.width (Text.before p.column (lineAt lines p.row)) = p.column := h.2
    rw [Cut.position, hlen, hcol]

namespace Cut
variable {c e : Cut}

/-- Lines and a position make a cut out. -/
theorem ext_position (hlines : c.lines = e.lines) (hp : c.position = e.position) : c = e := by
  have habove : c.above = e.above := by rw [← c.take_lines, hlines, hp, e.take_lines]
  have hbelow : c.below = e.below := by rw [← c.drop_lines, hlines, hp, e.drop_lines]
  have hleft : c.left = e.left := by rw [← c.before_lines, hlines, hp, e.before_lines]
  have hright : c.right = e.right := by rw [← c.after_lines, hlines, hp, e.after_lines]
  cases c
  cases e
  simp_all

/-- Of two cuts the later one is in the same row, some characters on, or some rows below. -/
theorem cases_of_le (hlines : c.lines = e.lines) (hle : c.position ≤ e.position) :
    (∃ m, c.above = e.above ∧ e.left = c.left ++ m ∧ c.right = m ++ e.right) ∨
      ∃ rows, e.above = c.above ++ (c.left ++ c.right) :: rows ∧
        c.below = rows ++ (e.left ++ e.right) :: e.below := by
  rcases hle with hrow | ⟨hrow, hcolumn⟩
  · obtain ⟨k, hk⟩ := Nat.exists_eq_add_of_lt hrow
    have hlen : e.above.length = c.above.length + (k + 1) := hk
    have habove : e.above = c.above ++ (c.left ++ c.right) :: c.below.take k := by
      rw [← e.take_lines, ← hlines, position, hlen, lines, List.take_length_add_append,
        List.take_succ_cons]
    have hbelow : c.below.drop k = (e.left ++ e.right) :: e.below := by
      have := congrArg (List.drop (c.above.length + (k + 1))) hlines
      rwa [lines, List.drop_length_add_append, List.drop_succ_cons, lines, ← hlen,
        List.drop_left] at this
    exact .inr ⟨c.below.take k, habove, by rw [← hbelow, List.take_append_drop]⟩
  · obtain ⟨habove, hrest⟩ := List.append_inj hlines hrow
    have hleft : c.left ++ c.right = e.left ++ e.right := (List.cons.inj hrest).1
    refine .inl ?_
    rcases List.append_eq_append_iff.1 hleft with ⟨m, hm, hr⟩ | ⟨m, hm, hr⟩
    · exact ⟨m, habove, hm, hr⟩
    · -- the earlier cut reaches no further, so nothing is between
      have hzero : Text.width m = 0 := by
        have : Text.width c.left ≤ Text.width e.left := hcolumn
        rw [hm, Text.width_append] at this
        omega
      obtain rfl := Text.width_eq_zero.1 hzero
      exact ⟨[], habove, by rw [hm]; simp, by rw [hr]; simp⟩

/-- What is between two cuts in one row. -/
theorem piecesBetween_beside {m : Line} (habove : c.above = e.above) (hleft : e.left = c.left ++ m)
    (hright : c.right = m ++ e.right) :
    TextDocument.piecesBetween c.lines ⟨c.position, e.position⟩ = [m] := by
  have hrow : c.position.row = e.position.row := congrArg List.length habove
  have hm : Text.between c.position.column e.position.column (c.left ++ c.right) = m := by
    rw [hright, ← List.append_assoc, ← hleft, Text.between, position, position, Text.before_width,
      hleft, Text.after_width]
  simp only [TextDocument.piecesBetween, if_pos hrow, c.lineAt_lines, hm]

theorem row_lt_of_below {rows : List Line} (habove : e.above = c.above ++ (c.left ++ c.right) :: rows) :
    c.position.row < e.position.row := by
  have := congrArg List.length habove
  simp only [List.length_append, List.length_cons] at this
  simp only [position]
  omega

/-- What is between two cuts, the later one some rows below. -/
theorem piecesBetween_below {rows : List Line} (hlines : c.lines = e.lines)
    (habove : e.above = c.above ++ (c.left ++ c.right) :: rows) :
    TextDocument.piecesBetween c.lines ⟨c.position, e.position⟩ = c.right :: (rows ++ [e.left]) := by
  have hrow := Nat.ne_of_lt (row_lt_of_below habove)
  have hrows : (c.lines.take e.position.row).drop (c.position.row + 1) = rows := by
    rw [hlines, e.take_lines, habove, position, ← List.drop_drop, List.drop_left]
    rfl
  simp only [TextDocument.piecesBetween, if_neg hrow, hrows]
  rw [c.after_lines, hlines, e.before_lines]

/-- The text in front of the later cut goes on where that in front of the earlier one ends. -/
theorem front_of_le (hlines : c.lines = e.lines) (hle : c.position ≤ e.position) :
    e.front = c.front ++
      Text.joinLines (TextDocument.piecesBetween c.lines ⟨c.position, e.position⟩) := by
  rcases cases_of_le hlines hle with ⟨m, habove, hleft, hright⟩ | ⟨rows, habove, -⟩
  · rw [piecesBetween_beside habove hleft hright, front, front, hleft, habove]
    simp [Text.joinLines]
  · rw [piecesBetween_below hlines habove, ← List.cons_append, Text.joinLines_around, front, habove,
      front]
    simp

theorem offset_le_of_le (hlines : c.lines = e.lines) (hle : c.position ≤ e.position) :
    offset c.lines c.position ≤ offset c.lines e.position := by
  rw [hlines, e.offset_lines, ← hlines, c.offset_lines, front_of_le hlines hle, Text.width_append]
  exact Nat.le_add_right _ _

theorem offset_lt_of_lt (hlines : c.lines = e.lines) (hlt : c.position < e.position) :
    offset c.lines c.position < offset c.lines e.position := by
  have hle : c.position ≤ e.position := hlt.imp_right fun ⟨hrow, hcol⟩ => ⟨hrow, Nat.le_of_lt hcol⟩
  rw [hlines, e.offset_lines, ← hlines, c.offset_lines]
  rcases cases_of_le hlines hle with ⟨m, habove, hleft, hright⟩ | ⟨rows, habove, hbelow⟩
  · have hcolumn : Text.width c.left < Text.width e.left := by
      rcases hlt with hrow | ⟨-, hcol⟩
      · exact absurd (congrArg List.length habove) (Nat.ne_of_lt hrow)
      · exact hcol
    rw [front, front, habove, Text.width_append, Text.width_append]
    exact Nat.add_lt_add_left hcolumn _
  · have hfeed : '\n'.utf8Size = 1 := rfl
    rw [front, front, habove, Text.rowsAbove_append, Text.rowsAbove_cons]
    simp only [Text.width_append, Text.width_cons, hfeed]
    omega

end Cut

theorem Position.lt_or_eq_or_gt (a b : Position) : a < b ∨ a = b ∨ b < a := by
  obtain ⟨r, c⟩ := a
  obtain ⟨s, e⟩ := b
  simp only [Position.lt_def, Position.mk.injEq]
  omega

/-- No two positions have the same offset. -/
theorem LiesIn.eq_of_offset {p q : Position} {lines : List Line} (hp : LiesIn p lines)
    (hq : LiesIn q lines) (h : offset lines p = offset lines q) : p = q := by
  obtain ⟨c, rfl, rfl⟩ := hp.exists_cut
  obtain ⟨e, he, rfl⟩ := hq.exists_cut
  rcases Position.lt_or_eq_or_gt c.position e.position with hlt | heq | hlt
  · exact absurd h (Nat.ne_of_lt (Cut.offset_lt_of_lt he.symm hlt))
  · exact heq
  · have := Cut.offset_lt_of_lt he hlt
    rw [he] at this
    exact absurd h.symm (Nat.ne_of_lt this)

/-! ### Edits at cuts -/

namespace Cut

/-- The cut behind pieces that are put in. -/
def behind (c : Cut) : List Line → Cut
  | [] => c
  | [piece] => {c with left := c.left ++ piece}
  | piece :: more => behind ⟨c.above ++ [c.left ++ piece], [], c.right, c.below⟩ more

theorem lines_behind (c : Cut) (pieces : List Line) : (c.behind pieces).lines =
    c.above ++ TextDocument.weave c.left c.right pieces ++ c.below := by
  fun_induction behind c pieces with
  | case1 c => simp [lines, TextDocument.weave]
  | case2 c piece => simp [lines, TextDocument.weave]
  | case3 c piece more hmore ih =>
    rw [ih, TextDocument.weave]
    · simp
    · exact hmore

theorem position_behind (c : Cut) (pieces : List Line) :
    (c.behind pieces).position = TextDocument.behindPieces c.position pieces := by
  fun_induction behind c pieces with
  | case1 c => rfl
  | case2 c piece => simp [position, TextDocument.behindPieces]
  | case3 c piece more hmore ih =>
    rw [ih, TextDocument.behindPieces]
    · simp [position]
    · exact hmore

theorem front_behind (c : Cut) (pieces : List Line) :
    (c.behind pieces).front = c.front ++ Text.joinLines pieces := by
  fun_induction behind c pieces with
  | case1 c => simp [Text.joinLines, Text.joinWith]
  | case2 c piece => simp [front, Text.joinLines]
  | case3 c piece more hmore ih =>
    rw [ih, Text.joinLines_cons hmore]
    simp [front]

theorem back_behind (c : Cut) (pieces : List Line) : (c.behind pieces).back = c.back := by
  fun_induction behind c pieces with
  | case1 c => rfl
  | case2 c piece => rfl
  | case3 c piece more hmore ih => exact ih

end Cut

namespace TextDocument
variable {d : TextDocument}

theorem clamp_liesIn (h : d.lines ≠ []) (p : Position) : LiesIn (d.clamp p) d.lines := by
  have hlen := List.length_pos_iff.2 h
  by_cases hp : p.row ≥ d.lines.length
  · rw [clamp, if_pos hp]
    refine ⟨Nat.sub_lt hlen Nat.one_pos, ?_⟩
    have := Text.isBoundary_width_append (lineAt d.lines (d.lines.length - 1)) []
    rwa [List.append_nil] at this
  · rw [clamp, if_neg hp]
    exact ⟨Nat.lt_of_not_ge hp, Text.isBoundary_floorColumn _ _⟩

/-- Putting a text in at a cut leads to the cut behind its lines. -/
theorem insert_cut {c : Cut} {p : Position} (hlines : c.lines = d.lines)
    (hp : c.position = d.clamp p) (text : List Char) :
    (d.insert p text).doc.lines = (c.behind (Text.splitLines text)).lines ∧
      (d.insert p text).position = (c.behind (Text.splitLines text)).position := by
  rw [Cut.lines_behind, Cut.position_behind]
  by_cases ht : text = []
  · subst ht
    rw [insert, if_pos rfl]
    refine ⟨?_, hp.symm⟩
    simp [← hlines, Cut.lines, Text.splitLines, Text.cutAt, Text.dropReturn, weave]
  · rw [insert, if_neg ht]
    dsimp only [line]
    rw [← hlines, ← hp, c.before_lines, c.after_lines, c.take_lines, c.drop_lines]
    exact ⟨rfl, rfl⟩

/-- Taking out what is between two cuts leaves what is to the left of the first and to the right of
the second. -/
theorem remove_eq_cut {c e : Cut} {range : Range} (hc : c.lines = d.lines) (he : e.lines = d.lines)
    (hrange : d.clampRange range = ⟨c.position, e.position⟩) :
    d.remove range = ⟨{d with lines := (Cut.mk c.above c.left e.right e.below).lines}, c.position,
      if Range.isEmpty ⟨c.position, e.position⟩ then []
      else [⟨.remove, ⟨c.position, e.position⟩,
        piecesBetween d.lines ⟨c.position, e.position⟩⟩]⟩ := by
  unfold clampRange at hrange
  rw [remove, hrange]
  dsimp only [line]
  by_cases hr : Range.isEmpty ⟨c.position, e.position⟩
  · obtain rfl := Cut.ext_position (hc.trans he.symm) (eq_of_beq hr)
    have hlines : (Cut.mk c.above c.left c.right c.below).lines = d.lines := hc
    rw [if_pos hr, if_pos hr, hlines]
  · have hleft : Text.before c.position.column (lineAt d.lines c.position.row) = c.left :=
      hc ▸ c.before_lines
    have habove : d.lines.take c.position.row = c.above := hc ▸ c.take_lines
    have hright : Text.after e.position.column (lineAt d.lines e.position.row) = e.right :=
      he ▸ e.after_lines
    have hbelow : d.lines.drop (e.position.row + 1) = e.below := he ▸ e.drop_lines
    rw [if_neg hr, if_neg hr, hleft, habove, hright, hbelow]
    rfl

theorem remove_cut {c e : Cut} {range : Range} (hc : c.lines = d.lines) (he : e.lines = d.lines)
    (hrange : d.clampRange range = ⟨c.position, e.position⟩) :
    (d.remove range).doc.lines = (Cut.mk c.above c.left e.right e.below).lines ∧
      (d.remove range).position = c.position := by
  rw [remove_eq_cut hc he hrange]
  exact ⟨rfl, rfl⟩

/-! ### Edits of the text -/

theorem clamp_of_liesIn {p : Position} (h : LiesIn p d.lines) : d.clamp p = p := by
  obtain ⟨hrow, hcolumn⟩ := h
  rw [clamp, if_neg (Nat.not_le.2 hrow)]
  exact congrArg (Position.mk p.row) hcolumn

theorem exists_cut_clamp (h : d.lines ≠ []) (p : Position) :
    ∃ c : Cut, c.lines = d.lines ∧ c.position = d.clamp p :=
  (clamp_liesIn h p).exists_cut

theorem insert_value (h : d.lines ≠ []) (p : Position) (text : List Char) :
    (d.insert p text).doc.value =
      Text.before (offset d.lines (d.clamp p)) d.value ++ Text.dropReturns text ++
        Text.after (offset d.lines (d.clamp p)) d.value := by
  obtain ⟨c, hc, hp⟩ := exists_cut_clamp h p
  rw [value, value, (insert_cut hc hp text).1, Cut.joinLines_lines, Cut.front_behind,
    Cut.back_behind, Text.joinLines_splitLines_eq, ← hc, ← hp, c.before_offset, c.after_offset]

theorem insert_position (h : d.lines ≠ []) (p : Position) (text : List Char) :
    LiesIn (d.insert p text).position (d.insert p text).doc.lines ∧
      offset (d.insert p text).doc.lines (d.insert p text).position =
        offset d.lines (d.clamp p) + Text.width (Text.dropReturns text) := by
  obtain ⟨c, hc, hp⟩ := exists_cut_clamp h p
  obtain ⟨hlines, hposition⟩ := insert_cut hc hp text
  rw [hlines, hposition]
  refine ⟨Cut.liesIn _, ?_⟩
  rw [Cut.offset_lines, Cut.front_behind, Text.width_append, Text.joinLines_splitLines_eq, ← hc,
    ← hp, c.offset_lines]

theorem insert_told (d : TextDocument) (p : Position) (text : List Char) :
    (d.insert p text).told =
      if text = [] then []
      else d.listeners.map fun l =>
        (l, ⟨.insert, ⟨d.clamp p, (d.insert p text).position⟩, Text.splitLines text⟩) := by
  have hlisteners : (d.insert p text).doc.listeners = d.listeners :=
    (Revision.make_listeners d (.insert p text)).1
  rw [Edit.told, insert_deltas, hlisteners]
  split
  · rfl
  · exact List.flatMap_singleton ..

/-- The smaller offset of the two ends of a range. -/
def firstOffset (d : TextDocument) (range : Range) : Nat :=
  min (offset d.lines (d.clamp range.start)) (offset d.lines (d.clamp range.stop))

/-- The larger offset of the two ends of a range. -/
def lastOffset (d : TextDocument) (range : Range) : Nat :=
  max (offset d.lines (d.clamp range.start)) (offset d.lines (d.clamp range.stop))

/-- The ends of a range in the document, the earlier one first. -/
theorem exists_cuts (h : d.lines ≠ []) (range : Range) :
    ∃ c e : Cut, c.lines = d.lines ∧ e.lines = d.lines ∧
      d.clampRange range = ⟨c.position, e.position⟩ ∧ c.position ≤ e.position ∧
      offset d.lines c.position = d.firstOffset range ∧
      offset d.lines e.position = d.lastOffset range := by
  obtain ⟨c, hc, hcp⟩ := exists_cut_clamp h range.start
  obtain ⟨e, he, hep⟩ := exists_cut_clamp h range.stop
  rw [clampRange, Range.ofPoints, firstOffset, lastOffset, ← hcp, ← hep]
  split
  · next hle =>
    have hoffset := Cut.offset_le_of_le (hc.trans he.symm) hle
    rw [hc] at hoffset
    exact ⟨c, e, hc, he, rfl, hle, (Nat.min_eq_left hoffset).symm, (Nat.max_eq_right hoffset).symm⟩
  · next hle =>
    have hge := (Position.le_total _ _).resolve_left hle
    have hoffset := Cut.offset_le_of_le (he.trans hc.symm) hge
    rw [he] at hoffset
    exact ⟨e, c, he, hc, rfl, hge, (Nat.min_eq_right hoffset).symm, (Nat.max_eq_left hoffset).symm⟩

theorem remove_value (h : d.lines ≠ []) (range : Range) : (d.remove range).doc.value =
    Text.before (d.firstOffset range) d.value ++ Text.after (d.lastOffset range) d.value := by
  obtain ⟨c, e, hc, he, hrange, -, hfirst, hlast⟩ := exists_cuts h range
  rw [value, value, (remove_cut hc he hrange).1, Cut.joinLines_lines, ← hfirst, ← hc,
    c.before_offset, ← hlast, hc, ← he, e.after_offset]
  rfl

theorem remove_position (h : d.lines ≠ []) (range : Range) :
    LiesIn (d.remove range).position (d.remove range).doc.lines ∧
      offset (d.remove range).doc.lines (d.remove range).position = d.firstOffset range := by
  obtain ⟨c, e, hc, he, hrange, -, hfirst, -⟩ := exists_cuts h range
  obtain ⟨hlines, hposition⟩ := remove_cut hc he hrange
  rw [hlines, hposition]
  refine ⟨Cut.liesIn ⟨c.above, c.left, e.right, e.below⟩, ?_⟩
  rw [← hfirst, ← hc, c.offset_lines]
  exact Cut.offset_lines ⟨c.above, c.left, e.right, e.below⟩

/-- The ends of a range lie in the document, at its offsets. -/
theorem clampRange_liesIn (h : d.lines ≠ []) (range : Range) :
    LiesIn (d.clampRange range).start d.lines ∧ LiesIn (d.clampRange range).stop d.lines ∧
      offset d.lines (d.clampRange range).start = d.firstOffset range ∧
      offset d.lines (d.clampRange range).stop = d.lastOffset range := by
  obtain ⟨c, e, hc, he, hrange, -, hfirst, hlast⟩ := exists_cuts h range
  rw [hrange]
  exact ⟨hc ▸ c.liesIn, he ▸ e.liesIn, hfirst, hlast⟩

/-- A range is empty if its ends have the same offset. -/
theorem clampRange_isEmpty (h : d.lines ≠ []) (range : Range) :
    (d.clampRange range).isEmpty = true ↔ ¬d.firstOffset range < d.lastOffset range := by
  obtain ⟨hstart, hstop, hfirst, hlast⟩ := clampRange_liesIn h range
  have hle : d.firstOffset range ≤ d.lastOffset range := Nat.le_trans (Nat.min_le_left _ _)
    (Nat.le_max_left _ _)
  rw [Range.isEmpty, beq_iff_eq]
  constructor
  · intro heq
    rw [← hfirst, ← hlast, heq]
    exact Nat.lt_irrefl _
  · intro hge
    exact hstart.eq_of_offset hstop (by omega)

/-- What is taken out of a range. -/
theorem joinLines_piecesBetween (h : d.lines ≠ []) (range : Range) :
    Text.joinLines (piecesBetween d.lines (d.clampRange range)) =
      Text.between (d.firstOffset range) (d.lastOffset range) d.value := by
  obtain ⟨c, e, hc, he, hrange, hle, hfirst, hlast⟩ := exists_cuts h range
  have hfront := Cut.front_of_le (hc.trans he.symm) hle
  rw [hc] at hfront
  rw [Text.between, value, hrange, ← hlast, ← he, e.before_offset, hfront, ← hfirst, ← hc,
    c.offset_lines, Text.after_width, hc, he]

theorem remove_start (d : TextDocument) (range : Range) :
    (d.remove range).position = (d.clampRange range).start := by
  unfold remove clampRange
  dsimp only
  split <;> rfl

theorem replace_told (d : TextDocument) (range : Range) (text : List Char) :
    (d.replace range text).told =
      (d.remove range).told ++ ((d.remove range).doc.insert (d.remove range).position text).told := by
  have hinserted : ((d.remove range).doc.insert (d.remove range).position text).doc.listeners =
      (d.remove range).doc.listeners :=
    (Revision.make_listeners (d.remove range).doc (.insert _ text)).1
  rw [Edit.told, Edit.told, Edit.told, replace, List.flatMap_append, hinserted]

theorem replace_value (h : d.lines ≠ []) (range : Range) (text : List Char) :
    (d.replace range text).doc.value = Text.before (d.firstOffset range) d.value ++
      Text.dropReturns text ++ Text.after (d.lastOffset range) d.value := by
  obtain ⟨hlies, hoffset⟩ := remove_position h range
  have hwidth : Text.width (Text.before (d.firstOffset range) d.value) = d.firstOffset range := by
    obtain ⟨c, e, hc, -, -, -, hfirst, -⟩ := exists_cuts h range
    rw [value, ← hfirst, ← hc, c.before_offset, c.offset_lines]
  have hinsert := insert_value (remove_lines_ne_nil h range) (d.remove range).position text
  rw [clamp_of_liesIn hlies, hoffset, remove_value h] at hinsert
  generalize Text.before (d.firstOffset range) d.value = front at hinsert hwidth ⊢
  rw [← hwidth, Text.before_width, Text.after_width] at hinsert
  exact hinsert

theorem replace_position (h : d.lines ≠ []) (range : Range) (text : List Char) :
    LiesIn (d.replace range text).position (d.replace range text).doc.lines ∧
      offset (d.replace range text).doc.lines (d.replace range text).position =
        d.firstOffset range + Text.width (Text.dropReturns text) := by
  obtain ⟨hlies, hoffset⟩ := remove_position h range
  have hinsert := insert_position (remove_lines_ne_nil h range) (d.remove range).position text
  rwa [clamp_of_liesIn hlies, hoffset] at hinsert

theorem remove_told (h : d.lines ≠ []) (range : Range) : (d.remove range).told =
    if d.firstOffset range < d.lastOffset range then
      d.listeners.map fun l =>
        (l, ⟨.remove, d.clampRange range, piecesBetween d.lines (d.clampRange range)⟩)
    else [] := by
  have hlisteners : (d.remove range).doc.listeners = d.listeners :=
    (Revision.make_listeners d (.remove range)).1
  rw [Edit.told, remove_deltas, hlisteners]
  by_cases hr : (d.clampRange range).isEmpty
  · rw [if_pos hr, if_neg ((clampRange_isEmpty h range).1 hr)]
    rfl
  · rw [if_neg hr, if_pos (Decidable.not_not.1 fun hlt => hr ((clampRange_isEmpty h range).2 hlt))]
    exact List.flatMap_singleton ..

end TextDocument

/-- `p` is the position of an offset: the only one in the lines that has it. -/
def IsAt (lines : List Line) (p : Position) (o : Nat) : Prop :=
  ∀ q, LiesIn q lines ∧ offset lines q = o ↔ q = p

theorem isAt_of_liesIn {lines : List Line} {p : Position} {o : Nat}
    (h : LiesIn p lines ∧ offset lines p = o) : IsAt lines p o := by
  intro q
  constructor
  · rintro ⟨hq, ho⟩
    exact hq.eq_of_offset h.1 (ho.trans h.2.symm)
  · rintro rfl
    exact h

namespace TextDocument

/-- **A document is edited as one text.** Whatever has been done to a document before, putting a text
in puts it in at an offset, less the carriage returns of its line ends, and taking out takes out what
is between two offsets; the position given is that of the offset behind the edit. Each listener hears
of what was put in, if any text was given, and of what was taken out, if anything was. -/
theorem edits_flat_text (start : List Char) (ops : List Operation) :
    let d := (ofText start).use ops
    d.listeners.Nodup ∧
    (∀ p text,
      let e := d.insert p text
      let o := offset d.lines (d.clamp p)
      let kept := Text.dropReturns text
      IsAt d.lines (d.clamp p) o ∧
        e.doc.value = Text.before o d.value ++ kept ++ Text.after o d.value ∧
        IsAt e.doc.lines e.position (o + Text.width kept) ∧
        ∃ pieces, Text.joinLines pieces = kept ∧
          e.told = if text = [] then [] else d.listeners.map fun l =>
            (l, ⟨.insert, ⟨d.clamp p, e.position⟩, pieces⟩)) ∧
    (∀ range,
      let e := d.remove range
      let a := d.firstOffset range
      let b := d.lastOffset range
      e.doc.value = Text.before a d.value ++ Text.after b d.value ∧
        IsAt e.doc.lines e.position a ∧
        ∃ r pieces, IsAt d.lines r.start a ∧ IsAt d.lines r.stop b ∧ e.position = r.start ∧
          Text.joinLines pieces = Text.between a b d.value ∧
          e.told = if a < b then d.listeners.map fun l => (l, ⟨.remove, r, pieces⟩) else []) ∧
    (∀ range text,
      let e := d.replace range text
      let removed := d.remove range
      let inserted := removed.doc.insert removed.position text
      let a := d.firstOffset range
      let kept := Text.dropReturns text
      e.doc = inserted.doc ∧ e.position = inserted.position ∧
        e.told = removed.told ++ inserted.told ∧
        e.doc.value =
          Text.before a d.value ++ kept ++ Text.after (d.lastOffset range) d.value ∧
        IsAt e.doc.lines e.position (a + Text.width kept)) ∧
    ∀ text, (d.setValue text).doc.lines = (ofText text).lines := by
  intro d
  have hd : d.WellFormed := wellFormed_use (wellFormed_ofText start) ops
  have hne := hd.nonempty
  refine ⟨hd.nodup, fun p text => ?_, fun range => ?_, fun range text => ?_, fun text => ?_⟩
  · exact ⟨isAt_of_liesIn ⟨clamp_liesIn hne p, rfl⟩, insert_value hne p text,
      isAt_of_liesIn (insert_position hne p text), Text.splitLines text,
      Text.joinLines_splitLines_eq text, insert_told d p text⟩
  · obtain ⟨hstart, hstop, hfirst, hlast⟩ := clampRange_liesIn hne range
    exact ⟨remove_value hne range, isAt_of_liesIn (remove_position hne range),
      d.clampRange range, piecesBetween d.lines (d.clampRange range),
      isAt_of_liesIn ⟨hstart, hfirst⟩, isAt_of_liesIn ⟨hstop, hlast⟩, remove_start d range,
      joinLines_piecesBetween hne range, remove_told hne range⟩
  · exact ⟨rfl, rfl, replace_told d range text, replace_value hne range text,
      isAt_of_liesIn (replace_position hne range text)⟩
  · exact setValue_lines hne text

end TextDocument

end CodeEditing.Document
