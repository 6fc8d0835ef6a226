import CodeEditing.Pattern.Matching
import CodeEditing.Pattern.Reader

/-! Expressions, whoever has read them.

A rule does not care how its pattern is matched. What it asks of an expression is a `Regex`, and all
it may rely on comes with it: a match lies in the text, its groups lie in the match, and the two ways
to ask for a match tell of the same one (`Regex.find_within`). Places count characters, so none is
inside of one.

`Matcher.regex` is the expression that a matcher makes, and `Matcher.regex?` reads the notation of
`CodeEditing.Pattern.Reader`, which is all that the languages here are written in. A rule table can be
built with any other reader. -/
namespace CodeEditing

/-- The indices of the ends of a match. -/
structure Match.Span where
  start : Nat
  stop : Nat
  deriving Repr, DecidableEq

def Match.span (m : Match) : Match.Span := ⟨m.start, m.stop⟩

/-- An expression that has been read. Of the matches in a text it is left open which one is told. -/
structure Regex where
  groupCount : Nat
  /-- Whether there is a match somewhere in the text. -/
  occursIn : List Char → Bool
  /-- Where there is a match. -/
  find : List Char → Option Match.Span
  /-- The match with its groups. -/
  captures : List Char → Option Match
  within : ∀ {text : List Char} {m : Match}, captures text = some m → m.Within 0 text.length
  agrees : ∀ text : List Char, find text = (captures text).map Match.span

theorem Regex.exists_captures {r : Regex} {text : List Char} {e : Match.Span}
    (h : r.find text = some e) : ∃ m, r.captures text = some m ∧ m.span = e := by
  rw [r.agrees] at h
  exact Option.map_eq_some_iff.1 h

theorem Regex.find_within {r : Regex} {text : List Char} {e : Match.Span} (h : r.find text = some e) :
    e.start ≤ e.stop ∧ e.stop ≤ text.length := by
  obtain ⟨m, hm, rfl⟩ := r.exists_captures h
  exact ⟨(r.within hm).start_le_stop, (r.within hm).stop_le⟩

/-! ### Matchers -/

namespace Matcher

/-- The expression of a matcher. -/
def regex (p : Matcher) : Regex where
  groupCount := p.groupCount
  occursIn := p.occursIn
  find text := (p.search text).map Match.span
  captures := p.search
  within := search_within
  agrees _ := rfl

@[simp] theorem regex_groupCount (p : Matcher) : p.regex.groupCount = p.groupCount := rfl

@[simp] theorem regex_occursIn (p : Matcher) (text : List Char) :
    p.regex.occursIn text = p.occursIn text := rfl

@[simp] theorem regex_captures (p : Matcher) (text : List Char) :
    p.regex.captures text = p.search text := rfl

theorem map_stop_find (p : Matcher) (text : List Char) :
    (p.regex.find text).map Match.Span.stop = (p.search text).map Match.stop := Option.map_map ..

theorem regex_find_eq_none {p : Matcher} {text : List Char} :
    p.regex.find text = none ↔ p.search text = none := Option.map_eq_none_iff

/-- The expression of a written pattern, if it stands for one. -/
def regex? (cs : List Char) : Option Regex := (ofText? cs).map regex

end Matcher

end CodeEditing
