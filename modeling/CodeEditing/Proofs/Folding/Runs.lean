import CodeEditing.Folding.Indentation
import CodeEditing.Proofs.Folding.Finders

/-! Runs of rows.

A block of deeper rows and a run of comment rows are found alike: rows with a property are passed, blank
rows too, up to the first other row (`lastWhile`). So the two go on beyond their first row in the same
case, when the first row below that is not blank has the property (`lt_lastWhile_iff`), and both end
inside of the text.

The widget of a row does not look as far: it looks at the next row alone. A row that is no comment has a
fold and no widget exactly when the next row is blank (`indentWidget_eq_start_iff`). -/
namespace CodeEditing.Folding

open Document (Line Position Range LiesIn lineAt indentLevel?)

/-! ### Rows with a property -/

/-- The last row with a property among the rows numbered from `row` on, up to the first that is neither
such a row nor blank. Without one it is `last`. -/
def lastWhile (keeps : Line → Bool) (last row : Nat) : List Line → Nat
  | [] => last
  | line :: lines =>
    if Text.allBlank line then lastWhile keeps last (row + 1) lines
    else if keeps line then lastWhile keeps row (row + 1) lines
    else last

/-- The first row that is not blank. -/
def firstText? (lines : List Line) : Option Line := lines.find? (!Text.allBlank ·)

/-- Whether a row is deeper than a level. -/
def isDeeper (level : Nat) (line : Line) : Bool := (indentLevel? line).any (level < ·)

section
variable {keeps : Line → Bool} {last row : Nat} {lines : List Line} {line : Line}

theorem indentLevel?_of_blank (h : Text.allBlank line = true) : indentLevel? line = none := by
  rw [indentLevel?, if_pos h]

theorem indentLevel?_of_text (h : Text.allBlank line = false) :
    indentLevel? line = some (Text.width (Document.indent line)) := by
  rw [indentLevel?, if_neg (Bool.eq_false_iff.1 h)]

theorem lastDeeper_eq (level last row : Nat) (lines : List Line) :
    lastDeeper level last row lines = lastWhile (isDeeper level) last row lines := by
  induction lines generalizing last row with
  | nil => rfl
  | cons line lines ih =>
    rw [lastDeeper, lastWhile]
    cases hb : Text.allBlank line with
    | true =>
      rw [indentLevel?_of_blank hb, if_pos rfl]
      exact ih _ _
    | false =>
      rw [indentLevel?_of_text hb, if_neg Bool.false_ne_true, isDeeper, indentLevel?_of_text hb,
        Option.any_some]
      dsimp only
      rw [ih]
      by_cases hle : Text.width (Document.indent line) ≤ level
      · rw [if_pos hle, if_neg (by simpa using hle)]
      · rw [if_neg hle, if_pos (by simpa using hle)]

theorem lastComment_eq (mark : List Char) (last row : Nat) (lines : List Line) :
    lastComment mark last row lines = lastWhile (isCommentRow mark) last row lines := by
  induction lines generalizing last row with
  | nil => rfl
  | cons line lines ih =>
    rw [lastComment, lastWhile]
    cases hb : Text.allBlank line with
    | true =>
      rw [indentLevel?_of_blank hb, if_pos rfl]
      exact ih _ _
    | false =>
      rw [indentLevel?_of_text hb, if_neg Bool.false_ne_true]
      dsimp only
      rw [ih]

theorem lastWhile_ge (h : last ≤ row) : last ≤ lastWhile keeps last row lines := by
  induction lines generalizing last row with
  | nil => exact Nat.le_refl _
  | cons line lines ih =>
    rw [lastWhile]
    split
    · exact ih (Nat.le_succ_of_le h)
    · split
      · exact Nat.le_trans h (ih (Nat.le_succ row))
      · exact Nat.le_refl _

/-- A run ends with one of the rows. -/
theorem lastWhile_lt (h : last < row) : lastWhile keeps last row lines < row + lines.length := by
  induction lines generalizing last row with
  | nil => exact h
  | cons line lines ih =>
    rw [lastWhile, List.length_cons]
    split
    · have := ih (Nat.lt_add_one_of_lt h)
      omega
    · split
      · have := ih (Nat.lt_add_one row)
        omega
      · omega

/-- A run goes on when the first row that is not blank has the property. -/
theorem lt_lastWhile_iff (h : last < row) :
    last < lastWhile keeps last row lines ↔ ∃ line ∈ firstText? lines, keeps line = true := by
  induction lines generalizing last row with
  | nil => simp [lastWhile, firstText?]
  | cons line lines ih =>
    rw [lastWhile, firstText?, List.find?_cons]
    cases hb : Text.allBlank line with
    | true => exact ih (Nat.lt_succ_of_lt h)
    | false =>
      rw [if_neg Bool.false_ne_true]
      simp only [Bool.not_false, Option.mem_def, Option.some.injEq, exists_eq_left']
      by_cases hk : keeps line = true
      · rw [if_pos hk]
        exact ⟨fun _ => hk, fun _ => Nat.lt_of_lt_of_le h (lastWhile_ge (Nat.le_succ row))⟩
      · rw [if_neg hk]
        exact ⟨fun hlt => absurd hlt (Nat.lt_irrefl last), fun hk' => absurd hk' hk⟩

end

/-! ### Blocks -/

/-- From a column of a row to the end of the last row of the run below it. -/
def runBlock (keeps : Line → Bool) (lines : List Line) (row column : Nat) : Option Range :=
  let last := lastWhile keeps row (row + 1) (lines.drop (row + 1))
  if last > row then some ⟨⟨row, column⟩, ⟨last, Text.width (lineAt lines last)⟩⟩ else none

section
variable {keeps : Line → Bool} {mark : List Char} {lines : List Line} {row column : Nat} {r : Range}
  {style : Style}

theorem deeperBlock_eq (lines : List Line) (row column : Nat) : deeperBlock lines row column =
    (indentLevel? (lineAt lines row)).bind fun level =>
      runBlock (isDeeper level) lines row column := by
  unfold deeperBlock runBlock
  simp only [lastDeeper_eq]

theorem commentBlock_eq (mark : List Char) (lines : List Line) (row : Nat) :
    commentBlock mark lines row = if isCommentRow mark (lineAt lines row) then
      runBlock (isCommentRow mark) lines row (Text.width (lineAt lines row)) else none := by
  unfold commentBlock runBlock
  simp only [lastComment_eq]

theorem runBlock_eq_some (hstart : LiesIn ⟨row, column⟩ lines)
    (h : runBlock keeps lines row column = some r) : Spans lines r ∧ r.start = ⟨row, column⟩ := by
  obtain ⟨hlt, hr⟩ := Option.ite_none_right_eq_some.1 h
  obtain rfl := Option.some.inj hr
  have hrow : row < lines.length := hstart.1
  have hlast := @lastWhile_lt keeps row (row + 1) (lines.drop (row + 1)) (Nat.lt_add_one row)
  rw [List.length_drop] at hlast
  refine ⟨⟨hlt, hstart, liesIn_end (by omega)⟩, rfl⟩

theorem runBlock_isSome_iff : (runBlock keeps lines row column).isSome = true ↔
    ∃ line ∈ firstText? (lines.drop (row + 1)), keeps line = true := by
  rw [← lt_lastWhile_iff (Nat.lt_add_one row), runBlock]
  split
  · next h => exact ⟨fun _ => h, fun _ => rfl⟩
  · next h => exact ⟨nofun, fun hlt => absurd hlt h⟩

/-- Where the next row is not blank it is the first one below that is not. -/
theorem firstText?_of_next (h : Text.allBlank (lineAt lines (row + 1)) = false) :
    firstText? (lines.drop (row + 1)) = some (lineAt lines (row + 1)) := by
  have hrow := getElem?_of_text h
  obtain ⟨hlt, hget⟩ := List.getElem?_eq_some_iff.1 hrow
  rw [List.drop_eq_getElem_cons hlt, hget, firstText?, List.find?_cons, h]
  rfl

theorem allBlank_of_isCommentRow {line : Line} (h : isCommentRow mark line = true) :
    Text.allBlank line = false := by
  obtain ⟨hne, hmark⟩ := Bool.and_eq_true_iff.1 h
  refine Bool.eq_false_iff.2 fun hblank => ?_
  rw [(Text.trimStart_eq_nil_iff line).2 hblank] at hmark
  have hnil := List.prefix_nil.1 (List.isPrefixOf_iff_prefix.1 hmark)
  rw [hnil] at hne
  exact Bool.false_ne_true hne

theorem allBlank_of_isDeeper {level : Nat} {line : Line} (h : isDeeper level line = true) :
    Text.allBlank line = false := by
  refine Bool.eq_false_iff.2 fun hblank => ?_
  rw [isDeeper, indentLevel?_of_blank hblank] at h
  exact Bool.false_ne_true h

/-- A block of deeper rows begins where it is told to in the row. -/
theorem deeperBlock_eq_some {n : Nat}
    (h : deeperBlock lines row (columnAt (lineAt lines row) n) = some r) :
    Spans lines r ∧ r.start = ⟨row, columnAt (lineAt lines row) n⟩ := by
  rw [deeperBlock_eq] at h
  obtain ⟨level, hlevel, h⟩ := Option.bind_eq_some_iff.1 h
  have htext : Text.allBlank (lineAt lines row) = false := Bool.eq_false_iff.2 fun hblank => by
    rw [indentLevel?_of_blank hblank] at hlevel
    exact nomatch hlevel
  exact runBlock_eq_some (liesIn_columnAt (getElem?_of_text htext) n) h

theorem deeperBlock_isSome_iff : (deeperBlock lines row column).isSome = true ↔
    ∃ level ∈ indentLevel? (lineAt lines row),
      ∃ line ∈ firstText? (lines.drop (row + 1)), isDeeper level line = true := by
  rw [deeperBlock_eq]
  cases indentLevel? (lineAt lines row) with
  | none => simp
  | some level => simpa using runBlock_isSome_iff

theorem commentBlock_eq_some (h : commentBlock mark lines row = some r) :
    Spans lines r ∧ r.start = ⟨row, Text.width (lineAt lines row)⟩ := by
  rw [commentBlock_eq] at h
  obtain ⟨hcomment, h⟩ := Option.ite_none_right_eq_some.1 h
  have hrow := getElem?_of_text (allBlank_of_isCommentRow hcomment)
  exact runBlock_eq_some (liesIn_end (List.getElem?_eq_some_iff.1 hrow).1) h

theorem indentMode_rangeAt_eq_some (h : (indentMode mark).rangeAt lines row style = some r) :
    Spans lines r ∧ r.start = ⟨row, Text.width (lineAt lines row)⟩ := by
  rcases Option.or_eq_some_iff.1 h with h | ⟨-, h⟩
  · rw [indentationBlock, ← columnAt_length] at h
    rw [← columnAt_length]
    exact deeperBlock_eq_some h
  · exact commentBlock_eq_some h

/-! ### Widgets -/

/-- A row that is no comment carries a widget when the next row is deeper. -/
theorem indentWidget_of_text (hcomment : isCommentRow mark (lineAt lines row) = false) :
    indentWidget mark lines row = .start ↔
      ∃ level ∈ indentLevel? (lineAt lines row), isDeeper level (lineAt lines (row + 1)) = true := by
  rw [indentWidget]
  dsimp only
  cases indentLevel? (lineAt lines row) with
  | none => simp
  | some level =>
    dsimp only
    rw [hcomment, if_neg Bool.false_ne_true]
    simp only [isDeeper, Option.mem_def, Option.some.injEq, exists_eq_left']
    cases indentLevel? (lineAt lines (row + 1)) with
    | none => simp
    | some deeper => by_cases hlt : level < deeper <;> simp [hlt]

/-- A comment row carries a widget only when the next row is a comment. -/
theorem isCommentRow_of_widget (hcomment : isCommentRow mark (lineAt lines row) = true)
    (h : indentWidget mark lines row = .start) :
    isCommentRow mark (lineAt lines (row + 1)) = true := by
  rw [indentWidget, indentLevel?_of_text (allBlank_of_isCommentRow hcomment)] at h
  dsimp only at h
  rw [if_pos hcomment] at h
  have halike := Decidable.of_not_not fun hnot => nomatch (if_neg hnot).symm.trans h
  exact (Bool.and_eq_true_iff.1 (Bool.and_eq_true_iff.1 halike).2).1

/-- A row with a widget has a fold. -/
theorem rangeAt_isSome_of_widget (h : (indentMode mark).widget lines row style = .start) :
    ((indentMode mark).rangeAt lines row style).isSome = true := by
  have h : indentWidget mark lines row = .start := h
  show ((indentationBlock lines row).or (commentBlock mark lines row)).isSome = true
  rw [Option.isSome_or, Bool.or_eq_true]
  cases hcomment : isCommentRow mark (lineAt lines row) with
  | true =>
    have hnext := isCommentRow_of_widget hcomment h
    rw [commentBlock_eq, if_pos hcomment, runBlock_isSome_iff]
    exact .inr ⟨_, firstText?_of_next (allBlank_of_isCommentRow hnext), hnext⟩
  | false =>
    obtain ⟨level, hlevel, hnext⟩ := (indentWidget_of_text hcomment).1 h
    refine .inl (deeperBlock_isSome_iff.2 ⟨level, hlevel, _, ?_, hnext⟩)
    exact firstText?_of_next (allBlank_of_isDeeper hnext)

theorem mem_foldRanges {mode : FoldMode} : r ∈ foldRanges mode lines style ↔
    ∃ row < lines.length, mode.widget lines row style = .start ∧
      mode.rangeAt lines row style = some r := by
  simp only [foldRanges, List.mem_filterMap, List.mem_filter, List.mem_range, beq_iff_eq, and_assoc]

/-- **Where a fold has no widget.** A row that is no comment and folds deeper rows carries the widget
of the fold, and the fold is listed, exactly when the row below is not blank. -/
theorem indentWidget_eq_start_iff (hcomment : isCommentRow mark (lineAt lines row) = false)
    (h : (indentMode mark).rangeAt lines row style = some r) :
    ((indentMode mark).widget lines row style = .start ↔
        Text.allBlank (lineAt lines (row + 1)) = false) ∧
      (r ∈ foldRanges (indentMode mark) lines style ↔
        Text.allBlank (lineAt lines (row + 1)) = false) := by
  have hblock : (indentationBlock lines row).isSome = true := by
    rcases Option.or_eq_some_iff.1 h with h | ⟨-, h⟩
    · rw [h]
      rfl
    · rw [commentBlock_eq, hcomment] at h
      exact nomatch h
  obtain ⟨level, hlevel, line, hline, hdeeper⟩ := deeperBlock_isSome_iff.1 hblock
  have hwidget : (indentMode mark).widget lines row style = .start ↔
      Text.allBlank (lineAt lines (row + 1)) = false := by
    refine (indentWidget_of_text hcomment).trans ⟨?_, fun htext => ?_⟩
    · rintro ⟨_, _, hnext⟩
      exact allBlank_of_isDeeper hnext
    · obtain rfl := Option.some.inj ((firstText?_of_next htext).symm.trans hline)
      exact ⟨level, hlevel, hdeeper⟩
  refine ⟨hwidget, ?_⟩
  rw [mem_foldRanges, ← hwidget]
  obtain ⟨hspans, hstart⟩ := indentMode_rangeAt_eq_some h
  constructor
  · rintro ⟨other, -, hother, hrange⟩
    have : row = other := by
      have := (indentMode_rangeAt_eq_some hrange).2
      rw [hstart] at this
      exact congrArg Position.row this
    exact this ▸ hother
  · refine fun hstart' => ⟨row, ?_, hstart', h⟩
    have := hspans.start.1
    rwa [hstart] at this

/-- An empty row below the row that opens a block hides the fold. -/
theorem indentWidget_none_over_blank :
    let lines := ["f = ->".toList, [], "  a".toList]
    (indentMode ['#']).rangeAt lines 0 .markBegin = some ⟨⟨0, 6⟩, ⟨2, 3⟩⟩ ∧
      (indentMode ['#']).widget lines 0 .markBegin ≠ .start ∧
      ⟨⟨0, 6⟩, ⟨2, 3⟩⟩ ∉ foldRanges (indentMode ['#']) lines .markBegin := by
  intro lines
  have hrange : (indentMode ['#']).rangeAt lines 0 .markBegin = some ⟨⟨0, 6⟩, ⟨2, 3⟩⟩ := by decide
  have hblank : ¬Text.allBlank (lineAt lines 1) = false := by decide
  obtain ⟨hwidget, hlisted⟩ := indentWidget_eq_start_iff (by decide) hrange
  exact ⟨hrange, fun h => hblank (hwidget.1 h), fun h => hblank (hlisted.1 h)⟩

end

end CodeEditing.Folding
