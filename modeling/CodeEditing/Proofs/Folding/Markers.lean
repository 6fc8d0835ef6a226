import CodeEditing.Folding.Bracket
import CodeEditing.Proofs.Pattern.Search

/-! What the markers of the languages with braces find.

`BracketMarkers.Regular` is what folding relies on: the stop marker takes one character for a closing
bracket, or the end of a comment, and nothing in an empty row; and where the start marker takes no
bracket it ends behind the opening of a comment. That the markers are regular is seen from the groups
that a match of their patterns may close (`cstyle_regular`). -/
namespace CodeEditing.Folding.BracketMarkers

open Document (Line)

/-- What folding relies on in what the markers find. -/
structure Regular (m : BracketMarkers) : Prop where
  stop_nil : m.stop.search [] = none
  stop_bracket : ∀ {line : Line} {found : Match} {g : Capture}, m.stop.search line = some found →
    found.group? 1 = some g → g.stop = g.start + 1
  stop_comment : ∀ {line : Line} {found : Match} {g : Capture}, m.stop.search line = some found →
    found.group? 2 = some g → found.group? 1 = none
  start_comment : ∀ {line : Line} {found : Match}, m.start.search line = some found →
    found.group? 1 = none → ['/', '*'] <:+ line.take found.stop

/-! ### The markers as patterns -/

def openers : CharSet := .union (.union .nothing (.range '\x7b' '\x7b')) (.range '[' '[')

def closers : CharSet := .union (.union .nothing (.range '\x7d' '\x7d')) (.range ']' ']')

def many (s : CharSet) : Pattern := .times true 0 none (.one s)

/-- A bracket that is open at the end, or the opening of a comment at the beginning. -/
def startForm : Pattern :=
  .alt (.seq (.group 1 (.one openers)) (.seq (many (.compl closers)) (.anchor .textEnd)))
    (.seq (.anchor .textStart) (.seq (many .blank) (.group 2 (.text ['/', '*']))))

/-- A bracket that nothing opens before it, or the end of a comment. -/
def stopForm : Pattern :=
  .seq (.anchor .textStart)
    (.alt
      (.seq (many (.compl (.union (.union .nothing (.range '[' '[')) (.range '\x7b' '\x7b'))))
        (.group 1 (.one closers)))
      (.seq (many (.union (.union .nothing .blank) (.range '*' '*')))
        (.group 2 (.text ['*', '/']))))

theorem ofText?_cstyleStart : Pattern.ofText? cstyleStart = some startForm := by decide +kernel

theorem ofText?_cstyleStop : Pattern.ofText? cstyleStop = some stopForm := by decide +kernel

theorem cstyle_start : cstyle.start = startForm.matcher := by
  rw [cstyle, Matcher.ofText?, ofText?_cstyleStart]
  rfl

theorem cstyle_stop : cstyle.stop = stopForm.matcher := by
  rw [cstyle, Matcher.ofText?, Matcher.ofText?, ofText?_cstyleStop]
  rfl

/-! ### What they find -/

section
variable {line : Line} {found : Match} {g : Capture}

/-- A part without groups and then a group close this group alone. -/
theorem catches_group {front p : Pattern} {number : Nat} {s : Spot} {t : Trail}
    (hfront : front.groupless = true) (hp : p.groupless = true)
    (h : (front.seq (.group number p)).Catches (.start s) t) :
    ∃ u : Spot, front.Takes s u ∧ p.Takes u t.spot ∧
      t.captures = [⟨number, u.index, t.spot.index⟩] := by
  obtain ⟨u, hu, hgroup⟩ := h
  obtain ⟨v, hv, rfl⟩ := hgroup.of_group
  refine ⟨u.spot, hu.takes, hv.takes, ?_⟩
  have hnone : v.captures = [] := (hv.of_groupless hp).trans (hu.of_groupless hfront)
  rw [hnone]

/-- The stop marker takes a bracket in the first group or the end of a comment in the second. -/
theorem stop_captures (h : cstyle.stop.search line = some found) : ∃ start,
    found.captures = [⟨1, start, start + 1⟩] ∨ found.captures = [⟨2, start, start + 2⟩] := by
  rw [cstyle_stop] at h
  obtain ⟨s, t, -, -, -, hc, hanchor, ⟨-, rfl⟩, h⟩ := Pattern.search_catches h
  rcases h with h | h
  · obtain ⟨u, -, ⟨c, hc', -⟩, hcaptures⟩ := catches_group rfl rfl h
    exact ⟨u.index, .inl (by rw [← hc, hcaptures, hc'.index_eq]; rfl)⟩
  · obtain ⟨u, -, htext, hcaptures⟩ := catches_group rfl rfl h
    exact ⟨u.index, .inr (by rw [← hc, hcaptures, Spot.Reads.index_eq htext]; rfl)⟩

/-- The start marker takes a bracket in the first group or ends behind the opening of a comment. -/
theorem start_captures (h : cstyle.start.search line = some found) :
    (∃ g, found.captures = [g] ∧ g.number = 1) ∨ ['/', '*'] <:+ line.take found.stop := by
  rw [cstyle_start] at h
  obtain ⟨s, t, ⟨front, hs⟩, -, hstop, hc, h⟩ := Pattern.search_catches h
  rcases h with ⟨u, hgroup, hmore⟩ | ⟨-, ⟨-, rfl⟩, h⟩
  · obtain ⟨v, hv, rfl⟩ := hgroup.of_group
    have hnone : v.captures = [] := hv.of_groupless rfl
    have hlast := hmore.of_groupless rfl
    exact .inl ⟨_, by rw [← hc, hlast, hnone], rfl⟩
  · obtain ⟨u, hmany, htext, -⟩ := catches_group rfl rfl h
    obtain ⟨blanks, hblanks⟩ := hmany.reads
    have hreads := (hs.append hblanks).append htext
    exact .inr ⟨front ++ blanks, by rw [← hstop, hreads.split.1]⟩

end

/-- The markers of the languages with braces are regular. -/
theorem cstyle_regular : cstyle.Regular where
  stop_nil := by
    have hnone : stopForm.matcher.occursIn [] = false := Pattern.occursIn_nil rfl
    rw [cstyle_stop]
    exact Option.isSome_eq_false_iff.1 hnone |> Option.isNone_iff_eq_none.1
  stop_bracket h hg := by
    obtain ⟨start, hcaptures | hcaptures⟩ := stop_captures h
    · rw [Match.group?, hcaptures] at hg
      obtain rfl := Option.some.inj hg
      rfl
    · rw [Match.group?, hcaptures] at hg
      exact nomatch hg
  stop_comment h hg := by
    obtain ⟨start, hcaptures | hcaptures⟩ := stop_captures h
    · rw [Match.group?, hcaptures] at hg
      exact nomatch hg
    · rw [Match.group?, hcaptures]
      rfl
  start_comment h hg := by
    rcases start_captures h with ⟨g, hcaptures, hnumber⟩ | hends
    · rw [Match.group?, hcaptures] at hg
      simp [hnumber] at hg
    · exact hends

end CodeEditing.Folding.BracketMarkers
