import CodeEditing.Proofs.Document.FlatText

/-! Edits that undo each other.

What has been put in at a cut is what is between that cut and the one behind it
(`Cut.piecesBetween_behind`), and putting what is between two cuts in at the first leads to the second
(`Cut.behind_piecesBetween`). So taking out what has just been put in gives the document back, and so
does putting in what has just been taken out, as long as its lines are cut as they were joined
(`TextDocument.edits_undone`). -/
namespace CodeEditing.Document

namespace Cut

/-! ### In front of pieces and behind them -/

/-- The cut in front of pieces that are put in. -/
def ahead (c : Cut) : List Line → Cut
  | [] => c
  | [piece] => {c with right := piece ++ c.right}
  | piece :: more => ⟨c.above, c.left, piece, TextDocument.weave [] c.right more ++ c.below⟩

theorem lines_ahead (c : Cut) (pieces : List Line) :
    (c.ahead pieces).lines = (c.behind pieces).lines := by
  rw [lines_behind]
  match pieces with
  | [] => simp [ahead, lines, TextDocument.weave]
  | [piece] => simp [ahead, lines, TextDocument.weave]
  | piece :: next :: more => simp [ahead, lines, TextDocument.weave]

theorem position_ahead (c : Cut) (pieces : List Line) : (c.ahead pieces).position = c.position := by
  match pieces with
  | [] => rfl
  | [piece] => rfl
  | piece :: next :: more => rfl

/-- Behind several pieces the first one has gone to the left part of the row, the last one to the right
part, and the others are rows of their own. -/
theorem behind_rows (c : Cut) (first : Line) (rows : List Line) (last : Line) :
    c.behind (first :: (rows ++ [last])) =
      ⟨c.above ++ (c.left ++ first) :: rows, last, c.right, c.below⟩ := by
  induction rows generalizing c first with
  | nil => simp [behind]
  | cons row rows ih =>
    rw [behind, List.cons_append, ih]
    · simp
    · simp

/-- One piece, or a first and a last one with rows between them. -/
theorem one_or_rows {pieces : List Line} (h : pieces ≠ []) :
    (∃ piece, pieces = [piece]) ∨ ∃ first rows last, pieces = first :: (rows ++ [last]) := by
  obtain ⟨first, more, rfl⟩ := List.exists_cons_of_ne_nil h
  rcases List.eq_nil_or_concat more with rfl | ⟨rows, last, rfl⟩
  · exact .inl ⟨first, rfl⟩
  · exact .inr ⟨first, rows, last, by rw [List.concat_eq_append]⟩

/-- What has been put in is what is between the cut it was put in at and the one behind it. -/
theorem piecesBetween_behind (c : Cut) {pieces : List Line} (h : pieces ≠ []) :
    (c.ahead pieces).position ≤ (c.behind pieces).position ∧
      TextDocument.piecesBetween (c.ahead pieces).lines
        ⟨(c.ahead pieces).position, (c.behind pieces).position⟩ = pieces := by
  rcases one_or_rows h with ⟨piece, rfl⟩ | ⟨first, rows, last, rfl⟩
  · refine ⟨.inr ⟨rfl, ?_⟩, piecesBetween_beside rfl rfl rfl⟩
    simp [position, ahead, behind]
  · have habove : (c.behind (first :: (rows ++ [last]))).above =
        (c.ahead (first :: (rows ++ [last]))).above ++
          ((c.ahead (first :: (rows ++ [last]))).left ++
            (c.ahead (first :: (rows ++ [last]))).right) :: rows := by
      rw [behind_rows, ahead]
      simp
    refine ⟨.inl (row_lt_of_below habove), ?_⟩
    rw [piecesBetween_below (lines_ahead c _) habove, behind_rows, ahead]
    simp

/-- Without the pieces that are put in, the cut they were put in at is left. -/
theorem ahead_behind (c : Cut) {pieces : List Line} (h : pieces ≠ []) :
    Cut.mk (c.ahead pieces).above (c.ahead pieces).left (c.behind pieces).right
      (c.behind pieces).below = c := by
  rcases one_or_rows h with ⟨piece, rfl⟩ | ⟨first, rows, last, rfl⟩
  · rfl
  · rw [behind_rows, ahead]
    simp

/-- Putting what is between two cuts in at the first leads to the second. -/
theorem behind_piecesBetween {c e : Cut} (hlines : c.lines = e.lines)
    (hle : c.position ≤ e.position) :
    (Cut.mk c.above c.left e.right e.below).behind
      (TextDocument.piecesBetween c.lines ⟨c.position, e.position⟩) = e := by
  rcases cases_of_le hlines hle with ⟨m, habove, hleft, hright⟩ | ⟨rows, habove, -⟩
  · rw [piecesBetween_beside habove hleft hright, behind, habove, ← hleft]
  · rw [piecesBetween_below hlines habove, behind_rows, ← habove]

end Cut

namespace TextDocument
variable {d : TextDocument}

/-! ### Undoing -/

/-- The range from one cut to a later one lies in the document. -/
theorem clampRange_cuts {c e : Cut} (hc : c.lines = d.lines) (he : e.lines = d.lines)
    (hle : c.position ≤ e.position) :
    d.clampRange ⟨c.position, e.position⟩ = ⟨c.position, e.position⟩ := by
  rw [clampRange, clamp_of_liesIn (hc ▸ c.liesIn), clamp_of_liesIn (he ▸ e.liesIn), Range.ofPoints,
    if_pos hle]

/-- Documents with the same lines and listeners are the same. -/
theorem ext_lines {e : TextDocument} (hlines : e.lines = d.lines)
    (hkept : e.listeners = d.listeners ∧ e.nextListener = d.nextListener) : e = d := by
  cases d
  cases e
  simp_all

/-- Taking out what has just been put in gives the document back. -/
theorem remove_insert (h : d.lines ≠ []) (p : Position) (text : List Char) :
    let e := d.insert p text
    let r : Range := ⟨d.clamp p, e.position⟩
    (e.doc.remove r).doc = d ∧
      (e.doc.remove r).deltas =
        if r.isEmpty then [] else [⟨.remove, r, Text.splitLines text⟩] := by
  intro e r
  obtain ⟨c, hc, hp⟩ := exists_cut_clamp h p
  obtain ⟨hbehind, hposition⟩ := insert_cut hc hp text
  have hpieces := Text.splitLines_ne_nil text
  have hahead := (c.lines_ahead (Text.splitLines text)).trans hbehind.symm
  obtain ⟨hle, hbetween⟩ := c.piecesBetween_behind hpieces
  have hr : r = ⟨(c.ahead (Text.splitLines text)).position,
      (c.behind (Text.splitLines text)).position⟩ := by
    rw [c.position_ahead, hp, ← hposition]
  have hkept := Revision.make_listeners d (.insert p text)
  rw [hr, remove_eq_cut hahead hbehind.symm (clampRange_cuts hahead hbehind.symm hle), ← hahead,
    hbetween, c.ahead_behind hpieces, hc]
  exact ⟨ext_lines rfl hkept, rfl⟩

/-! ### Putting in what has been taken out -/

theorem mem_flatten_piecesBetween {c : Char} {r : Range}
    (h : c ∈ (piecesBetween d.lines r).flatten) : c ∈ d.lines.flatten := by
  unfold piecesBetween at h
  dsimp only at h
  split at h
  · rw [List.flatten_singleton] at h
    exact mem_flatten_of_mem_line (mem_of_mem_before (mem_of_mem_after h))
  · rw [List.flatten_cons, List.flatten_concat, List.mem_append, List.mem_append] at h
    obtain h | h | h := h
    · exact mem_flatten_of_mem_line (mem_of_mem_after h)
    · obtain ⟨l, hl, hc⟩ := List.mem_flatten.1 h
      exact List.mem_flatten.2 ⟨l, List.mem_of_mem_take (List.mem_of_mem_drop hl), hc⟩
    · exact mem_flatten_of_mem_line (mem_of_mem_before h)

theorem piecesBetween_ne_nil (lines : List Line) (r : Range) : piecesBetween lines r ≠ [] := by
  unfold piecesBetween
  dsimp only
  split <;> exact List.cons_ne_nil _ _

/-- What is taken out of lines without line ends has none. -/
theorem piecesBetween_clean (h : Clean d.lines) (r : Range) : Clean (piecesBetween d.lines r) where
  nonempty := piecesBetween_ne_nil d.lines r
  no_feed hc := h.no_feed (mem_flatten_piecesBetween hc)
  no_return hc := h.no_return (mem_flatten_piecesBetween hc)

/-- Putting in what has just been taken out gives the document back. -/
theorem insert_remove (h : Clean d.lines) (range : Range) :
    let e := d.remove range
    let r := d.clampRange range
    let back := e.doc.insert e.position (Text.joinLines (piecesBetween d.lines r))
    back.doc = d ∧ back.position = r.stop := by
  intro e r back
  obtain ⟨c, f, hc, hf, hr, hle, -, -⟩ := exists_cuts h.nonempty range
  obtain ⟨hlines, hposition⟩ := remove_cut hc hf hr
  have hcut : (Cut.mk c.above c.left f.right f.below).position = e.doc.clamp e.position := by
    rw [clamp_of_liesIn (remove_position h.nonempty range).1, hposition]
    rfl
  obtain ⟨hback, hstop⟩ :=
    insert_cut hlines.symm hcut (Text.joinLines (piecesBetween d.lines r))
  have hbehind : (Cut.mk c.above c.left f.right f.below).behind (piecesBetween d.lines r) = f := by
    have := Cut.behind_piecesBetween (hc.trans hf.symm) hle
    rwa [hc, ← hr] at this
  rw [(piecesBetween_clean h r).splitLines_joinLines, hbehind] at hback hstop
  obtain ⟨hputs, hnext⟩ := Revision.make_listeners e.doc
    (.insert e.position (Text.joinLines (piecesBetween d.lines r)))
  obtain ⟨htaken, hleft⟩ := Revision.make_listeners d (.remove range)
  refine ⟨ext_lines (hback.trans hf) ⟨hputs.trans htaken, hnext.trans hleft⟩, ?_⟩
  exact hstop.trans (congrArg Range.stop hr).symm

/-- **Edits undo each other.** Whatever has been done to a document before, taking out what has just
been put in gives it back, and tells of the lines that were put in, if there is anything to take out.
Where no line has a carriage return, putting in what has just been taken out gives the document back
too, and leads behind it. -/
theorem edits_undone (start : List Char) (ops : List Operation) :
    let d := (ofText start).use ops
    (∀ p text,
      let e := d.insert p text
      let r : Range := ⟨d.clamp p, e.position⟩
      (e.doc.remove r).doc = d ∧
        (r.isEmpty = false → ∃ pieces,
          e.deltas = [⟨.insert, r, pieces⟩] ∧ (e.doc.remove r).deltas = [⟨.remove, r, pieces⟩])) ∧
    ((∀ line ∈ d.lines, '\r' ∉ line) → ∀ range, (d.clampRange range).isEmpty = false →
      let e := d.remove range
      ∃ r pieces, e.deltas = [⟨.remove, r, pieces⟩] ∧
        (e.doc.insert e.position (Text.joinLines pieces)).doc = d ∧
        (e.doc.insert e.position (Text.joinLines pieces)).position = r.stop) := by
  intro d
  have hd : d.WellFormed := wellFormed_use (wellFormed_ofText start) ops
  refine ⟨fun p text => ?_, fun hreturn range hr => ?_⟩
  · obtain ⟨hdoc, hdeltas⟩ := remove_insert hd.nonempty p text
    refine ⟨hdoc, fun hr => ⟨Text.splitLines text, ?_, ?_⟩⟩
    · have htext : text ≠ [] := by
        rintro rfl
        simp [Range.isEmpty, insert] at hr
      rw [insert_deltas, if_neg htext]
    · rw [hdeltas, hr]
      rfl
  · have hclean : Clean d.lines := ⟨hd.nonempty, hd.no_feed, fun hc => by
      obtain ⟨line, hline, hc⟩ := List.mem_flatten.1 hc
      exact hreturn line hline hc⟩
    obtain ⟨hdoc, hstop⟩ := insert_remove hclean range
    refine ⟨d.clampRange range, piecesBetween d.lines (d.clampRange range), ?_, hdoc, hstop⟩
    rw [remove_deltas, hr]
    rfl

/-- Two lines put in within a character, and a line end taken out, its ends the wrong way round. -/
theorem edits_undone_acrossRows :
    let d := (ofText "aé\r\nb".toList).use [.listen]
    let e := d.insert ⟨0, 2⟩ "x\r\ny".toList
    let r : Range := ⟨d.clamp ⟨0, 2⟩, e.position⟩
    let taken := d.remove ⟨⟨1, 0⟩, ⟨0, 1⟩⟩
    (r.isEmpty = false ∧ ∃ pieces,
      e.deltas = [⟨.insert, r, pieces⟩] ∧ (e.doc.remove r).deltas = [⟨.remove, r, pieces⟩]) ∧
    (∀ line ∈ d.lines, '\r' ∉ line) ∧ (d.clampRange ⟨⟨1, 0⟩, ⟨0, 1⟩⟩).isEmpty = false ∧
      ∃ r pieces, taken.deltas = [⟨.remove, r, pieces⟩] ∧
        (taken.doc.insert taken.position (Text.joinLines pieces)).doc = d ∧
        (taken.doc.insert taken.position (Text.joinLines pieces)).position = r.stop := by
  intro d e r taken
  obtain ⟨hput, htaken⟩ := edits_undone "aé\r\nb".toList [.listen]
  have hr : r.isEmpty = false := by decide
  have hreturn : ∀ line ∈ d.lines, '\r' ∉ line := by decide
  have hrange : (d.clampRange ⟨⟨1, 0⟩, ⟨0, 1⟩⟩).isEmpty = false := by decide
  exact ⟨⟨hr, (hput ⟨0, 2⟩ "x\r\ny".toList).2 hr⟩, hreturn, hrange, htaken hreturn _ hrange⟩

end TextDocument

end CodeEditing.Document
