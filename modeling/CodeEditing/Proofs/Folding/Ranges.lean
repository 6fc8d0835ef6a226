import CodeEditing.Folding.Marked
import CodeEditing.Proofs.Folding.Rows
import CodeEditing.Proofs.Folding.Runs

/-! Folds and their widgets.

Whatever finder a fold comes from, it spans rows of the text and lies between characters, and it begins
or ends in the row it was asked of, as the widget of that row says: `BracketMarkers.rangeAt_spans` for
folds between brackets and comments, `markedRange_spans` for those at marks, and `indentMode_rangeAt_eq_some`
for those by indentation. So the folds of a text are listed by the rows they begin in
(`pairwise_foldRanges`), and where a fold that begins in its row always comes with a widget, none is
missing (`mem_foldRanges_iff`). -/
namespace CodeEditing.Folding

open Document (Line Position Range LiesIn lineAt charAt? closerOf? openerOf? findPartner)

section
variable {lines : List Line} {row : Nat} {style : Style} {r : Range} {p q : Position} {c : Char}
  {opens : Nat → Bool}

/-! ### Ranges of the finders -/

theorem bracketBlock_spans (hc : charAt? lines p = some c)
    (h : bracketBlock opens lines c p.row p.column = some r) :
    Spans lines r ∧ r.start = p.onward := by
  obtain ⟨k, q, hk, hq, hstart, hrow, hstop⟩ := bracketBlock_eq_some hc h
  have hcloses := (Document.findPartner_of_opener hk hc hq).1
  have hfirst : LiesIn r.start lines := hstart ▸ liesIn_onward hc (Document.bracket_facts hk).2.1
  refine ⟨⟨by rw [hstart]; exact hrow, hfirst, ?_⟩, hstart⟩
  rcases hstop with ⟨-, hstop⟩ | ⟨-, hlt, hstop⟩
  · exact hstop ▸ liesIn_of_charAt? hcloses
  · have hrows := (liesIn_of_charAt? hcloses).1
    rw [hstop] at hlt ⊢
    exact liesIn_end (Nat.lt_trans hlt hrows)

theorem blockBefore_spans (hc : charAt? lines q = some c)
    (h : BracketMarkers.blockBefore lines c q.row (q.column + 1) = some r) :
    Spans lines r ∧ r.stop = q := by
  obtain ⟨o, p, ho, hp, hne, rfl⟩ := (blockBefore_eq_some_iff hc).1 h
  have hk := Document.openerOf?_eq_some_iff.1 ho
  have hpair := ((Document.findPartner_closer_iff hk hc).1.1 hp).1
  have hlt := hpair.lt
  rw [Document.Position.lt_def] at hlt
  refine ⟨⟨?_, liesIn_onward hpair.opens (Document.bracket_facts hk).2.1, liesIn_of_charAt? hc⟩, rfl⟩
  show p.row < q.row
  omega

theorem commentBefore_spans (hstop : LiesIn q lines)
    (h : BracketMarkers.commentBefore lines q = some r) : Spans lines r ∧ r.stop = q := by
  obtain ⟨rfl, hlt, line, hline, hopening⟩ := commentBefore_eq_some h
  obtain ⟨n, -, hstart⟩ := lastOpening?_eq_some hopening
  have := liesIn_columnAt hline (n + 2)
  rw [← hstart] at this
  exact ⟨⟨hlt, this, hstop⟩, rfl⟩

/-! ### Ranges of the modes -/

namespace BracketMarkers
variable {m : BracketMarkers}

theorem StartsComment.liesIn (h : m.StartsComment lines p) (hrow : p.row < lines.length) :
    LiesIn p lines := by
  obtain ⟨found, -, -, hcolumn⟩ := h
  have := liesIn_columnAt (Document.getElem?_of_lt hrow) found.stop
  rwa [hcolumn] at this

theorem StopsComment.liesIn (hm : m.Regular) (h : m.StopsComment lines q) : LiesIn q lines := by
  obtain ⟨found, g, hfound, -, hcolumn⟩ := h
  have hline : lines[q.row]? = some (lineAt lines q.row) :=
    Document.getElem?_of_lineAt_ne_nil fun hnil => by
      rw [hnil, hm.stop_nil] at hfound
      exact nomatch hfound
  have := liesIn_columnAt hline g.start
  rwa [hcolumn] at this

/-- A fold begins in the row it is asked of, whose widget says so, or ends there. -/
theorem rangeAt_spans (hm : m.Regular) (h : m.rangeAt lines row style = some r) :
    Spans lines r ∧
      (m.widget lines row style = .start ∧ r.start.row = row ∨
        style = .markBeginEnd ∧ m.widget lines row style = .stop ∧ r.stop.row = row) := by
  rcases rangeAt_cases hm h with ⟨p, c, rfl, hp, hr⟩ | ⟨p, rfl, hp, hr⟩ |
    ⟨rfl, hopens, ⟨q, c, rfl, hq, hr⟩ | ⟨q, rfl, hq, hr⟩⟩
  · obtain ⟨hspans, hstart⟩ := bracketBlock_spans hp.charAt?_eq hr
    exact ⟨hspans, .inl ⟨widget_of_opensAt hp.opensAt, by rw [hstart]; rfl⟩⟩
  · obtain ⟨rfl, hrow, hstop⟩ := commentAfter_eq_some hr
    exact ⟨⟨hrow, hp.liesIn (Nat.lt_trans hrow hstop.1), hstop⟩,
      .inl ⟨widget_of_opensAt hp.opensAt, rfl⟩⟩
  · obtain ⟨hspans, rfl⟩ := blockBefore_spans hq.charAt?_eq hr
    exact ⟨hspans, .inr ⟨rfl, hq.widget_stop hopens, rfl⟩⟩
  · obtain ⟨hspans, rfl⟩ := commentBefore_spans (hq.liesIn hm) hr
    exact ⟨hspans, .inr ⟨rfl, hq.widget_eq hopens, rfl⟩⟩

theorem row_of_widget (hm : m.Regular) (hw : m.widget lines row style = .start)
    (h : m.rangeAt lines row style = some r) : r.start.row = row := by
  rcases (rangeAt_spans hm h).2 with ⟨-, hrow⟩ | ⟨-, hstop, -⟩
  · exact hrow
  · exact nomatch hw.symm.trans hstop

theorem widget_of_row (hm : m.Regular) (h : m.rangeAt lines row style = some r)
    (hrow : r.start.row = row) : row < lines.length ∧ m.widget lines row style = .start := by
  obtain ⟨hspans, ⟨hw, -⟩ | ⟨-, -, hstop⟩⟩ := rangeAt_spans hm h
  · exact ⟨hrow ▸ hspans.start.1, hw⟩
  · exact absurd hspans.rows (by omega)

end BracketMarkers

/-- A fold at a mark begins in the row of the mark. -/
theorem markedRange_spans {mark : Matcher} (h : markedRange mark lines row = some r) :
    Spans lines r ∧ markedWidget mark lines row = .start ∧ r.start.row = row := by
  obtain ⟨found, hfound, h⟩ := Option.bind_eq_some_iff.1 h
  have hwidget : markedWidget mark lines row = .start := by
    rw [markedWidget, Matcher.occursIn, hfound]
    rfl
  cases hg : found.group? 1 with
  | some g =>
    rw [hg] at h
    obtain ⟨c, hc, h⟩ := Option.bind_eq_some_iff.1 h
    obtain ⟨hspans, hstart⟩ := bracketBlock_spans (charAt?_of_firstChar hc) h
    exact ⟨hspans, hwidget, by rw [hstart]; rfl⟩
  | none =>
    rw [hg] at h
    obtain ⟨g, -, h⟩ := Option.bind_eq_some_iff.1 h
    obtain ⟨hspans, hstart⟩ := deeperBlock_eq_some h
    exact ⟨hspans, hwidget, by rw [hstart]⟩

/-! ### Lists of folds -/

section
variable {mode : FoldMode}

/-- Folds are listed by their first rows. -/
theorem pairwise_foldRanges (hstart : ∀ row r, mode.widget lines row style = .start →
    mode.rangeAt lines row style = some r → r.start.row = row) :
    (foldRanges mode lines style).Pairwise fun a b => a.start.row < b.start.row := by
  rw [foldRanges, List.pairwise_filterMap]
  refine (List.pairwise_lt_range.filter _).imp_of_mem fun {a b} ha hb hlt x hx y hy => ?_
  have hwidget : ∀ {row}, row ∈ (List.range lines.length).filter
      (fun row => mode.widget lines row style == .start) → mode.widget lines row style = .start :=
    fun hrow => eq_of_beq (List.mem_filter.1 hrow).2
  rw [hstart a x (hwidget ha) hx, hstart b y (hwidget hb) hy]
  exact hlt

/-- Where a fold that begins in its row has a widget there, all such folds are listed. -/
theorem mem_foldRanges_iff (hstart : ∀ row r, mode.widget lines row style = .start →
      mode.rangeAt lines row style = some r → r.start.row = row)
    (hwidget : ∀ row r, mode.rangeAt lines row style = some r → r.start.row = row →
      row < lines.length ∧ mode.widget lines row style = .start) :
    r ∈ foldRanges mode lines style ↔
      ∃ row, mode.rangeAt lines row style = some r ∧ r.start.row = row := by
  rw [mem_foldRanges]
  constructor
  · rintro ⟨row, -, hw, hr⟩
    exact ⟨row, hr, hstart row r hw hr⟩
  · rintro ⟨row, hr, hrow⟩
    obtain ⟨hlt, hw⟩ := hwidget row r hr hrow
    exact ⟨row, hlt, hw, hr⟩

end

end

/-- **Folds and widgets.** In any text a fold of any mode spans rows of the text and lies between
characters. Between brackets and comments it begins in a row with a start widget, or ends in one with
an end widget; at marks it begins in a row with a widget; by indentation it begins at the end of its
row, and a row with a widget has one. Folds are listed by their first rows, and those of the first two
modes that begin in their rows are all listed. -/
theorem rangeAt_foldRanges (lines : List Line) (style : Style) (mark : List Char) :
    (∀ row r, BracketMarkers.cstyle.mode.rangeAt lines row style = some r → Spans lines r ∧
      (BracketMarkers.cstyle.mode.widget lines row style = .start ∧ r.start.row = row ∨
        style = .markBeginEnd ∧ BracketMarkers.cstyle.mode.widget lines row style = .stop ∧
          r.stop.row = row)) ∧
    (∀ row r, coffeeMode.rangeAt lines row style = some r → Spans lines r ∧
      coffeeMode.widget lines row style = .start ∧ r.start.row = row) ∧
    (∀ row r, (indentMode mark).rangeAt lines row style = some r → Spans lines r ∧
      r.start = ⟨row, Text.width (lineAt lines row)⟩) ∧
    (∀ row, (indentMode mark).widget lines row style = .start →
      ((indentMode mark).rangeAt lines row style).isSome) ∧
    (∀ mode ∈ [BracketMarkers.cstyle.mode, coffeeMode, indentMode mark],
      (foldRanges mode lines style).Pairwise fun a b => a.start.row < b.start.row) ∧
    ∀ mode ∈ [BracketMarkers.cstyle.mode, coffeeMode], ∀ r, r ∈ foldRanges mode lines style ↔
      ∃ row, mode.rangeAt lines row style = some r ∧ r.start.row = row := by
  refine ⟨fun row r => BracketMarkers.rangeAt_spans BracketMarkers.cstyle_regular,
    fun row r => markedRange_spans, fun row r => indentMode_rangeAt_eq_some,
    fun row => rangeAt_isSome_of_widget, ?_, ?_⟩
  · simp only [List.forall_mem_cons, List.not_mem_nil, false_implies, implies_true, and_true]
    refine ⟨pairwise_foldRanges fun row r => BracketMarkers.row_of_widget BracketMarkers.cstyle_regular,
      pairwise_foldRanges fun row r _ hr => (markedRange_spans hr).2.2,
      pairwise_foldRanges fun row r _ hr => ?_⟩
    rw [(indentMode_rangeAt_eq_some hr).2]
  · simp only [List.forall_mem_cons, List.not_mem_nil, false_implies, implies_true, and_true]
    refine ⟨fun r => mem_foldRanges_iff
        (fun row r => BracketMarkers.row_of_widget BracketMarkers.cstyle_regular)
        fun row r => BracketMarkers.widget_of_row BracketMarkers.cstyle_regular,
      fun r => mem_foldRanges_iff (fun row r _ hr => (markedRange_spans hr).2.2)
        fun row r hr hrow => ?_⟩
    obtain ⟨hspans, hw, -⟩ := markedRange_spans hr
    exact ⟨hrow ▸ hspans.start.1, hw⟩

/-- A bracket closes one block and opens the next; the closing bracket of the second folds back. -/
theorem rangeAt_foldRanges_reopened :
    let lines := ["if (a) \x7b".toList, "  x();".toList, "\x7d else \x7b".toList, "  y();".toList,
      "\x7d".toList]
    let mode := BracketMarkers.cstyle.mode
    mode.rangeAt lines 4 .markBeginEnd = some ⟨⟨2, 8⟩, ⟨4, 0⟩⟩ ∧ Spans lines ⟨⟨2, 8⟩, ⟨4, 0⟩⟩ ∧
      mode.widget lines 4 .markBeginEnd = .stop ∧
      mode.rangeAt lines 0 .markBeginEnd = some ⟨⟨0, 8⟩, ⟨1, 6⟩⟩ ∧
      ⟨⟨0, 8⟩, ⟨1, 6⟩⟩ ∈ foldRanges mode lines .markBeginEnd := by
  intro lines mode
  obtain ⟨hcstyle, -, -, -, -, hlisted⟩ := rangeAt_foldRanges lines .markBeginEnd []
  have hclosing : mode.rangeAt lines 4 .markBeginEnd = some ⟨⟨2, 8⟩, ⟨4, 0⟩⟩ := by decide +kernel
  have hopening : mode.rangeAt lines 0 .markBeginEnd = some ⟨⟨0, 8⟩, ⟨1, 6⟩⟩ := by decide +kernel
  obtain ⟨hspans, ⟨-, hrow⟩ | ⟨-, hstop, -⟩⟩ := hcstyle 4 _ hclosing
  · exact absurd hrow (by decide)
  · exact ⟨hclosing, hspans, hstop, hopening,
      (hlisted mode List.mem_cons_self _).2 ⟨0, hopening, rfl⟩⟩

end CodeEditing.Folding
