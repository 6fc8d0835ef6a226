import CodeEditing.Proofs.Folding.Finders
import CodeEditing.Proofs.Folding.Markers

/-! What a row is folded by.

The start marker takes a bracket of the row or ends behind the opening of a comment; where it finds
nothing, the stop marker may take a closing bracket or the end of a comment. In each case the fold is
that of one finder, from the place that was taken, and the widget says which marker it was
(`BracketMarkers.rangeAt_cases`). -/
namespace CodeEditing.Folding.BracketMarkers

open Document (Line Position Range LiesIn lineAt charAt?)

/-- A marker takes the bracket at a position. -/
def TakesBracket (marker : Matcher) (lines : List Line) (p : Position) (c : Char) : Prop :=
  ∃ found g, marker.search (lineAt lines p.row) = some found ∧ found.group? 1 = some g ∧
    firstChar (lineAt lines p.row) g = some c ∧ columnAt (lineAt lines p.row) g.start = p.column

section
variable (m : BracketMarkers) (lines : List Line)

/-- The start marker takes no bracket, but the opening of a comment before a position. -/
def StartsComment (p : Position) : Prop :=
  ∃ found, m.start.search (lineAt lines p.row) = some found ∧ found.group? 1 = none ∧
    columnAt (lineAt lines p.row) found.stop = p.column

/-- The stop marker takes the end of a comment at a position. -/
def StopsComment (q : Position) : Prop :=
  ∃ found g, m.stop.search (lineAt lines q.row) = some found ∧ found.group? 2 = some g ∧
    columnAt (lineAt lines q.row) g.start = q.column

/-- Whether the start marker finds anything in a row. -/
def opensAt (row : Nat) : Bool := m.start.occursIn (lineAt lines row)

end

section
variable {m : BracketMarkers} {lines : List Line} {row : Nat} {p q : Position} {c : Char}
  {style : Style} {r : Range}

theorem opens_eq : (fun row => m.widget lines row .markBegin == .start) = m.opensAt lines := by
  funext row
  cases h : m.opensAt lines row with
  | true => rw [widget, ← opensAt, h]; rfl
  | false => rw [widget, ← opensAt, h]; rfl

theorem widget_of_opensAt (h : m.opensAt lines row = true) : m.widget lines row style = .start := by
  rw [widget, ← opensAt, h]
  rfl

theorem widget_of_stop (h : m.opensAt lines row = false) {found : Match}
    (hstop : m.stop.search (lineAt lines row) = some found) :
    m.widget lines row .markBeginEnd = .stop := by
  rw [widget, ← opensAt, h, Matcher.occursIn, hstop]
  rfl

theorem opensAt_of_search {found : Match} (h : m.start.search (lineAt lines row) = some found) :
    m.opensAt lines row = true := by
  rw [opensAt, Matcher.occursIn, h]
  rfl

theorem search_of_not_opensAt (h : m.opensAt lines row = false) :
    m.start.search (lineAt lines row) = none :=
  Option.isNone_iff_eq_none.1 (Option.isSome_eq_false_iff.1 h)

/-! ### Brackets and comments -/

namespace TakesBracket

theorem charAt?_eq {marker : Matcher} (h : TakesBracket marker lines p c) :
    charAt? lines p = some c := by
  obtain ⟨found, g, -, -, hc, hcolumn⟩ := h
  have := charAt?_of_firstChar hc
  rwa [hcolumn] at this

theorem opensAt (h : TakesBracket m.start lines p c) : m.opensAt lines p.row = true := by
  obtain ⟨found, g, hfound, -⟩ := h
  exact opensAt_of_search hfound

theorem rangeAt_start (h : TakesBracket m.start lines p c) : m.rangeAt lines p.row style =
    bracketBlock (m.opensAt lines) lines c p.row p.column := by
  obtain ⟨found, g, hfound, hg, hc, hcolumn⟩ := h
  rw [rangeAt, hfound]
  dsimp only
  rw [hg]
  dsimp only
  rw [hc, Option.bind_some, opens_eq, hcolumn]

theorem widget_stop (h : TakesBracket m.stop lines q c) (hopens : m.opensAt lines q.row = false) :
    m.widget lines q.row .markBeginEnd = .stop := by
  obtain ⟨found, g, hfound, -⟩ := h
  exact widget_of_stop hopens hfound

theorem rangeAt_stop (hm : m.Regular) (h : TakesBracket m.stop lines q c)
    (hopens : m.opensAt lines q.row = false) :
    m.rangeAt lines q.row .markBeginEnd = blockBefore lines c q.row (q.column + 1) := by
  obtain ⟨found, g, hfound, hg, hc, hcolumn⟩ := h
  have hstop : columnAt (lineAt lines q.row) g.stop = q.column + c.utf8Size := by
    rw [hm.stop_bracket hfound hg, columnAt_succ (getElem?_of_firstChar hc), hcolumn]
  rw [rangeAt, search_of_not_opensAt hopens, hfound]
  dsimp only
  rw [if_pos rfl, Option.bind_some, hg]
  dsimp only
  rw [hc, Option.bind_some, hstop]
  cases ho : Document.openerOf? c with
  | none => simp [blockBefore, Document.findOpener, ho]
  | some o => rw [(Document.bracket_facts (Document.openerOf?_eq_some_iff.1 ho)).2.2.1]

end TakesBracket

namespace StartsComment

theorem opensAt (h : m.StartsComment lines p) : m.opensAt lines p.row = true := by
  obtain ⟨found, hfound, -⟩ := h
  exact opensAt_of_search hfound

theorem rangeAt_eq (h : m.StartsComment lines p) :
    m.rangeAt lines p.row style = commentAfter lines p := by
  obtain ⟨found, hfound, hg, hcolumn⟩ := h
  rw [rangeAt, hfound]
  dsimp only
  rw [hg]
  dsimp only
  rw [hcolumn]

end StartsComment

namespace StopsComment

theorem widget_eq (h : m.StopsComment lines q) (hopens : m.opensAt lines q.row = false) :
    m.widget lines q.row .markBeginEnd = .stop := by
  obtain ⟨found, g, hfound, -⟩ := h
  exact widget_of_stop hopens hfound

theorem rangeAt_eq (hm : m.Regular) (h : m.StopsComment lines q)
    (hopens : m.opensAt lines q.row = false) :
    m.rangeAt lines q.row .markBeginEnd = commentBefore lines q := by
  obtain ⟨found, g, hfound, hg, hcolumn⟩ := h
  rw [rangeAt, search_of_not_opensAt hopens, hfound]
  dsimp only
  rw [if_pos rfl, Option.bind_some, hm.stop_comment hfound hg]
  dsimp only
  rw [hg, Option.bind_some, hcolumn]

end StopsComment

/-- The fold of a row is that of one finder, from the place a marker took. -/
theorem rangeAt_cases (hm : m.Regular) (h : m.rangeAt lines row style = some r) :
    (∃ p c, p.row = row ∧ TakesBracket m.start lines p c ∧
      bracketBlock (m.opensAt lines) lines c p.row p.column = some r) ∨
    (∃ p, p.row = row ∧ m.StartsComment lines p ∧ commentAfter lines p = some r) ∨
    style = .markBeginEnd ∧ m.opensAt lines row = false ∧
      ((∃ q c, q.row = row ∧ TakesBracket m.stop lines q c ∧
        blockBefore lines c q.row (q.column + 1) = some r) ∨
      ∃ q, q.row = row ∧ m.StopsComment lines q ∧ commentBefore lines q = some r) := by
  cases hstart : m.start.search (lineAt lines row) with
  | some found =>
    cases hg : found.group? 1 with
    | some g =>
      have h' := h
      rw [rangeAt, hstart] at h'
      dsimp only at h'
      rw [hg] at h'
      obtain ⟨c, hc, -⟩ := Option.bind_eq_some_iff.1 h'
      have hb : TakesBracket m.start lines ⟨row, columnAt (lineAt lines row) g.start⟩ c :=
        ⟨found, g, hstart, hg, hc, rfl⟩
      exact .inl ⟨_, c, rfl, hb, hb.rangeAt_start ▸ h⟩
    | none =>
      have hs : m.StartsComment lines ⟨row, columnAt (lineAt lines row) found.stop⟩ :=
        ⟨found, hstart, hg, rfl⟩
      exact .inr (.inl ⟨_, rfl, hs, hs.rangeAt_eq ▸ h⟩)
  | none =>
    have hopens : m.opensAt lines row = false := by rw [opensAt, Matcher.occursIn, hstart]; rfl
    have h' := h
    rw [rangeAt, hstart] at h'
    obtain ⟨rfl, h'⟩ := Option.ite_none_right_eq_some.1 h'
    refine .inr (.inr ⟨rfl, hopens, ?_⟩)
    obtain ⟨found, hfound, h'⟩ := Option.bind_eq_some_iff.1 h'
    cases hg : found.group? 1 with
    | some g =>
      rw [hg] at h'
      obtain ⟨c, hc, -⟩ := Option.bind_eq_some_iff.1 h'
      have hb : TakesBracket m.stop lines ⟨row, columnAt (lineAt lines row) g.start⟩ c :=
        ⟨found, g, hfound, hg, hc, rfl⟩
      exact .inl ⟨_, c, rfl, hb, hb.rangeAt_stop hm hopens ▸ h⟩
    | none =>
      rw [hg] at h'
      obtain ⟨g, hg', -⟩ := Option.bind_eq_some_iff.1 h'
      have hs : m.StopsComment lines ⟨row, columnAt (lineAt lines row) g.start⟩ :=
        ⟨found, g, hfound, hg', rfl⟩
      exact .inr ⟨_, rfl, hs, hs.rangeAt_eq hm hopens ▸ h⟩

end

end CodeEditing.Folding.BracketMarkers
