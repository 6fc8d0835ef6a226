import CodeEditing.Folding.Bracket
import CodeEditing.Proofs.Document.Partners

/-! What the finders of folds give.

A fold spans rows of the text and lies between characters (`Spans`). A block between brackets goes from
behind a bracket to its partner, found from either end (`bracketBlock_eq_some`,
`blockBefore_eq_some_iff`); one that is found from its beginning may end a row earlier. A comment goes
from behind its opening to before its end (`commentAfter_eq_some`, `commentBefore_eq_some`). -/
namespace CodeEditing.Folding

open Document (Line Position Range LiesIn lineAt charAt? closerOf? openerOf? findPartner)

/-- A range over rows of a text, between characters. -/
structure Spans (lines : List Line) (r : Range) : Prop where
  rows : r.start.row < r.stop.row
  start : LiesIn r.start lines
  stop : LiesIn r.stop lines

theorem overRows_eq_some {start stop : Position} {r : Range} :
    overRows start stop = some r ↔ stop.row ≠ start.row ∧ r = ⟨start, stop⟩ := by
  rw [overRows]
  split
  · next h => exact ⟨nofun, fun hr => absurd h hr.1⟩
  · next h => exact ⟨fun hr => ⟨h, (Option.some.inj hr).symm⟩, fun hr => congrArg some hr.2.symm⟩

/-! ### Columns and characters -/

section
variable {lines : List Line} {line cs : Line} {row n : Nat} {g : Capture} {c : Char}

theorem liesIn_columnAt (h : lines[row]? = some line) (n : Nat) :
    LiesIn ⟨row, columnAt line n⟩ lines := by
  refine ⟨(List.getElem?_eq_some_iff.1 h).1, ?_⟩
  have := Text.isBoundary_width_append (line.take n) (line.drop n)
  rw [List.take_append_drop] at this
  rwa [Document.lineAt_of_getElem? h]

theorem columnAt_length (line : Line) : columnAt line line.length = Text.width line := by
  rw [columnAt, List.take_length]

theorem columnAt_succ (h : cs[n]? = some c) :
    columnAt cs (n + 1) = columnAt cs n + c.utf8Size := by
  simp [columnAt, List.take_add_one, h]

theorem getElem?_of_text (h : Text.allBlank (lineAt lines row) = false) :
    lines[row]? = some (lineAt lines row) :=
  Document.getElem?_of_lineAt_ne_nil fun hnil => by
    rw [hnil] at h
    exact nomatch h

/-- The end of a row. -/
theorem liesIn_end (h : row < lines.length) :
    LiesIn ⟨row, Text.width (lineAt lines row)⟩ lines := by
  rw [← columnAt_length]
  exact liesIn_columnAt (Document.getElem?_of_lt h) _

theorem getElem?_of_firstChar (h : firstChar cs g = some c) : cs[g.start]? = some c := by
  rw [firstChar, List.head?_drop, List.getElem?_take] at h
  split at h
  · exact h
  · exact nomatch h

/-- The first character of a group stands where the group begins. -/
theorem charAt?_of_firstChar (h : firstChar (lineAt lines row) g = some c) :
    charAt? lines ⟨row, columnAt (lineAt lines row) g.start⟩ = some c := by
  have hget := getElem?_of_firstChar h
  have hrow : lines[row]? = some (lineAt lines row) :=
    Document.getElem?_of_lineAt_ne_nil fun hnil => by
      rw [hnil] at hget
      exact nomatch hget
  generalize lineAt lines row = line at hrow hget
  rw [← List.take_append_drop g.start line] at hrow
  rw [columnAt, Document.charAt?_width hrow, List.head?_drop, hget]

theorem liesIn_of_charAt? {p : Position} (h : charAt? lines p = some c) : LiesIn p lines := by
  obtain ⟨e, rfl, rfl, -⟩ := Document.exists_cut_of_charAt? h
  exact e.liesIn

/-- Behind a character of one column there is a place as well. -/
theorem liesIn_onward {p : Position} (h : charAt? lines p = some c) (hsize : c.utf8Size = 1) :
    LiesIn p.onward lines := by
  obtain ⟨hrow, hcolumn⟩ := liesIn_of_charAt? h
  refine ⟨hrow, ?_⟩
  have hbefore := Document.before_beside h
  rw [hsize] at hbefore
  show Text.width (Text.before (p.column + 1) (lineAt lines p.row)) = p.column + 1
  have hwidth : Text.width (Text.before p.column (lineAt lines p.row)) = p.column := hcolumn
  rw [hbefore, Text.width_append, hwidth]
  simp [hsize]

end

/-! ### Brackets -/

section
variable {lines : List Line} {p q : Position} {c : Char} {r : Range} {opens : Nat → Bool}

theorem findCloser_eq_some_iff (hc : charAt? lines p = some c) :
    Document.findCloser lines c p.onward = some q ↔
      ∃ k, closerOf? c = some k ∧ findPartner lines p.onward = some q := by
  cases hk : closerOf? c with
  | none => simp [Document.findCloser, hk]
  | some k =>
    rw [Document.findPartner_onward (Document.bracket_facts hk).2.1 hc, hk]
    simp

theorem findOpener_eq_some_iff (hc : charAt? lines q = some c) :
    Document.findOpener lines c q.onward = some p ↔
      ∃ o, openerOf? c = some o ∧ findPartner lines q.onward = some p := by
  cases ho : openerOf? c with
  | none => simp [Document.findOpener, ho]
  | some o =>
    have hk := Document.openerOf?_eq_some_iff.1 ho
    rw [Document.findPartner_onward (Document.bracket_facts hk).2.2.1 hc,
      (Document.bracket_facts hk).2.2.2, ho]
    simp

/-- A block goes from behind an opening bracket to its partner, or to the end of the row before it. -/
theorem bracketBlock_eq_some (hc : charAt? lines p = some c)
    (h : bracketBlock opens lines c p.row p.column = some r) :
    ∃ k q, closerOf? c = some k ∧ findPartner lines p.onward = some q ∧ r.start = p.onward ∧
      p.row < r.stop.row ∧
      (opens q.row = false ∧ r.stop = q ∨
        opens q.row = true ∧ r.stop.row < q.row ∧
          r.stop = ⟨q.row - 1, Text.width (lineAt lines (q.row - 1))⟩) := by
  obtain ⟨q, hq, h⟩ := Option.bind_eq_some_iff.1 h
  obtain ⟨k, hk, hq⟩ := (findCloser_eq_some_iff hc).1 hq
  have hlt := ((Document.findPartner_opener_iff hk hc).1.1 hq).1.lt
  rw [Document.Position.lt_def] at hlt
  refine ⟨k, q, hk, hq, ?_⟩
  dsimp only at h
  split at h
  · next hopens =>
    obtain ⟨hrow, hopens⟩ := Bool.and_eq_true_iff.1 hopens
    have hrow : p.row < q.row := of_decide_eq_true hrow
    obtain ⟨hne, rfl⟩ := overRows_eq_some.1 h
    dsimp only at hne ⊢
    exact ⟨rfl, by omega, .inr ⟨hopens, by omega, rfl⟩⟩
  · next hopens =>
    obtain ⟨hne, rfl⟩ := overRows_eq_some.1 h
    dsimp only at hne ⊢
    have hrow : p.row < q.row := by omega
    simp only [gt_iff_lt, hrow, decide_true, Bool.true_and, Bool.not_eq_true] at hopens
    exact ⟨rfl, hrow, .inl ⟨hopens, rfl⟩⟩

/-- To the partner itself, where its row does not open a fold. -/
theorem bracketBlock_of_partner (hc : charAt? lines p = some c) {k : Char} (hk : closerOf? c = some k)
    (hq : findPartner lines p.onward = some q) (hrow : p.row ≠ q.row) (hopens : opens q.row = false) :
    bracketBlock opens lines c p.row p.column = some ⟨p.onward, q⟩ := by
  have hfind := (findCloser_eq_some_iff hc).2 ⟨k, hk, hq⟩
  rw [Position.onward] at hfind
  rw [bracketBlock, hfind, Option.bind_some, hopens, Bool.and_false, if_neg Bool.false_ne_true]
  exact overRows_eq_some.2 ⟨hrow.symm, rfl⟩

/-- A block found from its closing bracket goes from behind the partner to before the bracket. -/
theorem blockBefore_eq_some_iff (hc : charAt? lines q = some c) :
    BracketMarkers.blockBefore lines c q.row (q.column + 1) = some r ↔
      ∃ o p, openerOf? c = some o ∧ findPartner lines q.onward = some p ∧ p.row ≠ q.row ∧
        r = ⟨p.onward, q⟩ := by
  constructor
  · intro h
    obtain ⟨p, hp, h⟩ := Option.bind_eq_some_iff.1 h
    obtain ⟨o, ho, hp⟩ := (findOpener_eq_some_iff hc).1 hp
    obtain ⟨hne, rfl⟩ := overRows_eq_some.1 h
    exact ⟨o, p, ho, hp, hne.symm, rfl⟩
  · rintro ⟨o, p, ho, hp, hne, rfl⟩
    refine Option.bind_eq_some_iff.2 ⟨p, (findOpener_eq_some_iff hc).2 ⟨o, ho, hp⟩, ?_⟩
    exact overRows_eq_some.2 ⟨hne.symm, rfl⟩

end

/-! ### Comments -/

section
variable {lines : List Line} {line : Line} {row n : Nat} {p start stop : Position} {r : Range}

/-- The end of a comment found in whole rows stands in one of them. -/
theorem seekCommentEnd_eq_some {rows : List Line}
    (h : BracketMarkers.seekCommentEnd row 0 rows = some p) :
    ∃ i line n, rows[i]? = some line ∧ p = ⟨row + i, columnAt line n⟩ := by
  induction rows generalizing row with
  | nil => exact nomatch h
  | cons line rows ih =>
    rw [BracketMarkers.seekCommentEnd, Text.after_zero] at h
    split at h
    · next n _ =>
      obtain rfl := Option.some.inj h
      exact ⟨0, line, n, rfl, by rw [Nat.zero_add]; rfl⟩
    · obtain ⟨i, line, n, hi, rfl⟩ := ih h
      exact ⟨i + 1, line, n, hi, by rw [Nat.add_assoc, Nat.add_comm 1]⟩

/-- A comment goes from behind its opening to an end in a later row. -/
theorem commentAfter_eq_some (h : BracketMarkers.commentAfter lines start = some r) :
    r.start = start ∧ start.row < r.stop.row ∧ LiesIn r.stop lines := by
  obtain ⟨stop, hstop, h⟩ := Option.bind_eq_some_iff.1 h
  obtain ⟨hne, rfl⟩ := overRows_eq_some.1 h
  refine ⟨rfl, ?_⟩
  cases hrows : lines.drop start.row with
  | nil =>
    rw [hrows] at hstop
    exact nomatch hstop
  | cons line rows =>
    rw [hrows, BracketMarkers.seekCommentEnd] at hstop
    split at hstop
    · obtain rfl := Option.some.inj hstop
      exact absurd rfl hne
    · obtain ⟨i, line', n, hi, rfl⟩ := seekCommentEnd_eq_some hstop
      have hget : lines[start.row + 1 + i]? = some line' := by
        rw [← hi, ← List.getElem?_drop, ← List.drop_drop, hrows]
        rfl
      exact ⟨by dsimp only; omega, liesIn_columnAt hget n⟩

/-- The position behind the last opening of a comment in a row. -/
theorem lastOpening?_eq_some (h : BracketMarkers.lastOpening? line row = some p) :
    ∃ n, Text.lastIndexOf ['/', '*'] line = some n ∧ p = ⟨row, columnAt line (n + 2)⟩ := by
  obtain ⟨n, hn, rfl⟩ := Option.map_eq_some_iff.1 h
  refine ⟨n, hn, ?_⟩
  obtain ⟨back, hback⟩ := Text.drop_lastIndexOf hn
  have htake : line.take (n + 2) = line.take n ++ ['/', '*'] := by
    rw [List.take_add, ← hback]
    rfl
  rw [columnAt, htake, Text.width_append]
  rfl

/-- A comment found from its end begins behind the last opening of a row further up. -/
theorem commentBefore_eq_some (h : BracketMarkers.commentBefore lines stop = some r) :
    r.stop = stop ∧ r.start.row < stop.row ∧ ∃ line, lines[r.start.row]? = some line ∧
      BracketMarkers.lastOpening? line r.start.row = some r.start := by
  obtain ⟨start, hstart, h⟩ := Option.bind_eq_some_iff.1 h
  obtain ⟨hne, rfl⟩ := overRows_eq_some.1 h
  refine ⟨rfl, ?_⟩
  rcases Option.or_eq_some_iff.1 hstart with hstart | ⟨-, hstart⟩
  · obtain ⟨n, -, rfl⟩ := lastOpening?_eq_some hstart
    exact absurd rfl hne
  · obtain ⟨⟨line, row⟩, hmem, hopening⟩ := List.exists_of_findSome?_eq_some hstart
    rw [List.mem_reverse, List.mk_mem_zipIdx_iff_getElem?, List.getElem?_take] at hmem
    obtain ⟨n, -, rfl⟩ := lastOpening?_eq_some hopening
    split at hmem
    · next hlt => exact ⟨hlt, line, hmem, hopening⟩
    · exact nomatch hmem

end

end CodeEditing.Folding
