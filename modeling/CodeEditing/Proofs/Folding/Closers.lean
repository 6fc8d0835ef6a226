import CodeEditing.Document.Basic
import CodeEditing.Proofs.Folding.Ranges

/-! Folding back.

A closing bracket finds its block against reading order, and the end of a comment the opening that
comes last before it. Partners of brackets are partners of each other, so the block is that of the
opening bracket, as long as that one ends at its partner and either marker takes the bracket of the pair
(`rangeAt_of_partner`, `rangeAt_of_opener`). A comment is found from its end when no other one is
opened inside of it (`commentBefore_eq`). -/
namespace CodeEditing.Folding.BracketMarkers

open Document (Line Position Range LiesIn lineAt charAt? closerOf? openerOf? findPartner)
open Document.TextDocument (piecesBetween)

section
variable {m : BracketMarkers} {lines : List Line} {p q : Position} {c k : Char} {r : Range}

/-! ### Brackets -/

theorem not_opensAt_of_widget {row : Nat} {style : Style} (h : m.widget lines row style = .stop) :
    m.opensAt lines row = false := by
  cases hopens : m.opensAt lines row with
  | false => rfl
  | true => exact nomatch (widget_of_opensAt hopens).symm.trans h

/-- From the closing bracket that a block ends at. -/
theorem rangeAt_of_partner (hm : m.Regular) (hp : TakesBracket m.start lines p c)
    (hr : m.rangeAt lines p.row .markBegin = some r) (hpartner : findPartner lines r.start = some r.stop)
    (hstop : TakesBracket m.stop lines r.stop k) :
    m.widget lines r.stop.row .markBeginEnd = .stop ∧
      m.rangeAt lines r.stop.row .markBeginEnd = some r := by
  have hopening := hp.charAt?_eq
  rw [hp.rangeAt_start] at hr
  obtain ⟨k', q, hk, hq, hstart, hrow, hend⟩ := bracketBlock_eq_some hopening hr
  rw [hstart, hq] at hpartner
  obtain rfl := Option.some.inj hpartner
  have hopens : m.opensAt lines r.stop.row = false := by
    rcases hend with ⟨hopens, -⟩ | ⟨-, hlt, -⟩
    · exact hopens
    · exact absurd hlt (Nat.lt_irrefl _)
  obtain ⟨hclosing, hback⟩ := Document.findPartner_of_opener hk hopening hq
  obtain rfl := Option.some.inj (hstop.charAt?_eq.symm.trans hclosing)
  refine ⟨hstop.widget_stop hopens, ?_⟩
  rw [hstop.rangeAt_stop hm hopens, blockBefore_eq_some_iff hclosing]
  refine ⟨c, p, Document.openerOf?_eq_some_iff.2 hk, hback, Nat.ne_of_lt hrow, ?_⟩
  rw [← hstart]

/-- From the opening bracket of a block that was found from its closing one. -/
theorem rangeAt_of_opener (hm : m.Regular) (hq : TakesBracket m.stop lines q k)
    (hwidget : m.widget lines q.row .markBeginEnd = .stop)
    (hr : m.rangeAt lines q.row .markBeginEnd = some r) (hp : TakesBracket m.start lines p c)
    (hstart : p.onward = r.start) : m.rangeAt lines r.start.row .markBegin = some r := by
  have hopens := not_opensAt_of_widget hwidget
  have hclosing := hq.charAt?_eq
  rw [hq.rangeAt_stop hm hopens] at hr
  obtain ⟨o, p', ho, hpartner, hne, rfl⟩ := (blockBefore_eq_some_iff hclosing).1 hr
  obtain rfl : p = p' := by
    cases p
    cases p'
    simpa [Position.onward] using hstart
  have hk := Document.openerOf?_eq_some_iff.1 ho
  obtain ⟨hopening, hback⟩ := Document.findPartner_of_closer hk hclosing hpartner
  obtain rfl := Option.some.inj (hp.charAt?_eq.symm.trans hopening)
  show m.rangeAt lines p.row .markBegin = _
  rw [hp.rangeAt_start]
  exact bracketBlock_of_partner hopening hk hback hne hopens

/-! ### Comments -/

/-- Between two rows the last opening of a comment is that of the upper one, where none comes behind
it. -/
theorem findSome?_lastOpening? {first : Line} {above below : List Line}
    (hbelow : ∀ line ∈ below, ¬['/', '*'] <:+: line)
    (h : lastOpening? first above.length = some p) :
    (above ++ first :: below).zipIdx.reverse.findSome? (fun (line, row) => lastOpening? line row) =
      some p := by
  have hnone : ((below.zipIdx (above.length + 1)).reverse.findSome? fun (line, row) =>
      lastOpening? line row) = none := by
    refine List.findSome?_eq_none_iff.2 fun ⟨line, row⟩ hmem => ?_
    have hline : line ∈ below := List.fst_mem_of_mem_zipIdx (List.mem_reverse.1 hmem)
    show lastOpening? line row = none
    rw [lastOpening?, Text.lastIndexOf_eq_none (hbelow line hline)]
    rfl
  rw [List.zipIdx_append, List.zipIdx_cons, List.reverse_append, List.reverse_cons, List.append_assoc,
    List.findSome?_append, Nat.zero_add, hnone, Option.none_or]
  simp [h]

/-- The opening before a place, where none comes behind it. -/
theorem lastOpening?_eq {a b : Line} {row : Nat} (hb : ¬['/', '*'] <:+: b) :
    lastOpening? (a ++ ['/', '*'] ++ b) row = some ⟨row, Text.width (a ++ ['/', '*'])⟩ := by
  have hlast : Text.lastIndexOf ['/', '*'] ('/' :: '*' :: b) = some 0 := by
    simp [Text.lastIndexOf, Text.lastIndexOf_eq_none hb]
  rw [List.append_assoc, lastOpening?, List.cons_append, List.cons_append, List.nil_append,
    Text.lastIndexOf_append hlast]
  simp
  rfl

/-- The row of an opening that the start marker took, in front of it and behind it. -/
theorem StartsComment.split (hm : m.Regular) (hp : m.StartsComment lines p) : ∃ a b,
    lineAt lines p.row = a ++ ['/', '*'] ++ b ∧ p.column = Text.width (a ++ ['/', '*']) := by
  obtain ⟨found, hfound, hg, hcolumn⟩ := hp
  obtain ⟨a, ha⟩ := hm.start_comment hfound hg
  refine ⟨a, (lineAt lines p.row).drop found.stop, ?_, ?_⟩
  · rw [ha, List.take_append_drop]
  · rw [← hcolumn, columnAt, ha]

/-- From the end of a comment in which no other one is opened. -/
theorem commentBefore_eq (hm : m.Regular) (hp : m.StartsComment lines p)
    (hr : commentAfter lines p = some r)
    (hno : ∀ piece ∈ piecesBetween lines r, ¬['/', '*'] <:+: piece) :
    commentBefore lines r.stop = some r := by
  obtain ⟨rfl, hrow, hlast, -⟩ := commentAfter_eq_some hr
  obtain ⟨a, b, hline, hcolumn⟩ := hp.split hm
  have hpieces : piecesBetween lines r = b ::
      ((lines.take r.stop.row).drop (r.start.row + 1) ++
        [Text.before r.stop.column (lineAt lines r.stop.row)]) := by
    rw [piecesBetween, if_neg (Nat.ne_of_lt hrow), hline, hcolumn, Text.after_width]
  rw [hpieces] at hno
  obtain ⟨hfirst, hrest⟩ := List.forall_mem_cons.1 hno
  have hhere : lastOpening? (Text.before r.stop.column (lineAt lines r.stop.row)) r.stop.row = none := by
    have := hrest _ (List.mem_append_right _ List.mem_cons_self)
    rw [lastOpening?, Text.lastIndexOf_eq_none this]
    rfl
  have hrows : lines.take r.stop.row = lines.take r.start.row ++
      lineAt lines r.start.row :: (lines.take r.stop.row).drop (r.start.row + 1) := by
    have hget : (lines.take r.stop.row)[r.start.row]? = some (lineAt lines r.start.row) := by
      rw [List.getElem?_take_of_lt hrow, Document.getElem?_of_lt (Nat.lt_trans hrow hlast)]
    obtain ⟨hlt, hget⟩ := List.getElem?_eq_some_iff.1 hget
    have hsplit := List.take_append_drop r.start.row (lines.take r.stop.row)
    rw [List.take_take, Nat.min_eq_left (Nat.le_of_lt hrow), List.drop_eq_getElem_cons hlt,
      hget] at hsplit
    exact hsplit.symm
  have hopening : lastOpening? (lineAt lines r.start.row) (lines.take r.start.row).length =
      some r.start := by
    have hlen : (lines.take r.start.row).length = r.start.row := List.length_take_of_le (by omega)
    rw [hlen, hline, lastOpening?_eq hfirst, ← hcolumn]
  rw [commentBefore, hhere, Option.none_or, hrows]
  rw [findSome?_lastOpening? (fun line hmem => hrest line (List.mem_append_left _ hmem)) hopening]
  exact overRows_eq_some.2 ⟨Nat.ne_of_gt hrow, rfl⟩

end

/-- **Folding back from a closer gives the fold of its opener.** From the bracket that a block ends at,
if the stop marker takes it; to the bracket that a block begins behind, if the start marker takes that;
and from the end of a comment in which no other one is opened, if the stop marker takes it and the start
marker finds nothing in its row. -/
theorem rangeAt_back (lines : List Line) :
    (∀ p c k r, TakesBracket cstyle.start lines p c →
      cstyle.rangeAt lines p.row .markBegin = some r → findPartner lines r.start = some r.stop →
        TakesBracket cstyle.stop lines r.stop k →
          cstyle.widget lines r.stop.row .markBeginEnd = .stop ∧
            cstyle.rangeAt lines r.stop.row .markBeginEnd = some r) ∧
    (∀ p q c k r, TakesBracket cstyle.stop lines q k →
      cstyle.widget lines q.row .markBeginEnd = .stop →
        cstyle.rangeAt lines q.row .markBeginEnd = some r → TakesBracket cstyle.start lines p c →
          p.onward = r.start → cstyle.rangeAt lines r.start.row .markBegin = some r) ∧
    ∀ p r, cstyle.StartsComment lines p → cstyle.rangeAt lines p.row .markBegin = some r →
      (∀ piece ∈ piecesBetween lines r, ¬['/', '*'] <:+: piece) →
        cstyle.start.occursIn (lineAt lines r.stop.row) = false → cstyle.StopsComment lines r.stop →
          cstyle.rangeAt lines r.stop.row .markBeginEnd = some r := by
  refine ⟨fun p c k r hp hr => rangeAt_of_partner cstyle_regular hp hr,
    fun p q c k r hq hwidget hr => rangeAt_of_opener cstyle_regular hq hwidget hr,
    fun p r hp hr hno hopens hstop => ?_⟩
  rw [hp.rangeAt_eq] at hr
  rw [hstop.rangeAt_eq cstyle_regular hopens]
  exact commentBefore_eq cstyle_regular hp hr hno

/-- A block and a comment in it, each found from either end. -/
theorem rangeAt_back_nested :
    let lines := ["f \x7b".toList, "  /* a".toList, "   */".toList, "\x7d".toList]
    cstyle.widget lines 3 .markBeginEnd = .stop ∧
      cstyle.rangeAt lines 3 .markBeginEnd = some ⟨⟨0, 3⟩, ⟨3, 0⟩⟩ ∧
      cstyle.rangeAt lines 0 .markBegin = some ⟨⟨0, 3⟩, ⟨3, 0⟩⟩ ∧
      cstyle.rangeAt lines 2 .markBeginEnd = some ⟨⟨1, 4⟩, ⟨2, 3⟩⟩ := by
  intro lines
  obtain ⟨hforth, hback, hcomment⟩ := rangeAt_back lines
  have hopener : TakesBracket cstyle.start lines ⟨0, 2⟩ '\x7b' :=
    ⟨⟨2, 3, [⟨1, 2, 3⟩]⟩, ⟨1, 2, 3⟩, by decide +kernel, rfl, rfl, by decide⟩
  have hcloser : TakesBracket cstyle.stop lines ⟨3, 0⟩ '\x7d' :=
    ⟨⟨0, 1, [⟨1, 0, 1⟩]⟩, ⟨1, 0, 1⟩, by decide +kernel, rfl, rfl, by decide⟩
  have hopening : cstyle.StartsComment lines ⟨1, 4⟩ :=
    ⟨⟨0, 4, [⟨2, 2, 4⟩]⟩, by decide +kernel, rfl, by decide⟩
  have hend : cstyle.StopsComment lines ⟨2, 3⟩ :=
    ⟨⟨0, 5, [⟨2, 3, 5⟩]⟩, ⟨2, 3, 5⟩, by decide +kernel, rfl, by decide⟩
  obtain ⟨hwidget, hrange⟩ :=
    hforth ⟨0, 2⟩ _ _ ⟨⟨0, 3⟩, ⟨3, 0⟩⟩ hopener (by decide +kernel) (by decide) hcloser
  exact ⟨hwidget, hrange, hback _ _ _ _ _ hcloser hwidget hrange hopener rfl,
    hcomment ⟨1, 4⟩ ⟨⟨1, 4⟩, ⟨2, 3⟩⟩ hopening (by decide +kernel) (by decide) (by decide +kernel) hend⟩

end CodeEditing.Folding.BracketMarkers
