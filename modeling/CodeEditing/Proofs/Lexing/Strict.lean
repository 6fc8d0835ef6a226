import CodeEditing.Proofs.Lexing.Capped
import CodeEditing.Proofs.Lexing.Drafts

/-! Strict scans and lenient ones.

A lenient scan notes the empty matches that it passes over; a strict one fails on the first. Both do
the same at every step that notes nothing, and where one is noted the strict scan fails with just
that (`Scan.step_strict`). Hence they go side by side up to the first empty match
(`Scan.run_strict`), and a strict scan ends as a lenient one that notes nothing
(`Tokenizer.tokenizeStrictly_eq`). What is noted is the first rule of its state that matches the
rest of the line, and it takes nothing (`Scan.Stalls`); `Tokenizer.tokenizeStrictly_agrees` says so
by name and column. -/
namespace CodeEditing.Lexing

namespace Scan
variable {t : RuleTable} {cap : Nat} {s s' : Scan} {c : Char} {cs : List Char}

/-- The first rule that matches at a scan takes nothing, and this is what is noted of it. -/
structure Stalls (t : RuleTable) (s : Scan) (e : EmptyMatch) : Prop where
  offset : e.offset = s.offset
  matched : ∃ st rule m, t.state? s.state = some st ∧ e.state = st.name ∧
    firstMatch s.rest 0 st.rules = some (e.rule, rule, m) ∧ m.stop = 0

/-- A step notes nothing and does the same when it is strict, or it notes an empty match, on which a
strict one fails. -/
theorem step_strict (hrest : s.rest = c :: cs) (h : s.step t cap false c cs = .ok s') :
    (s'.noted = s.noted ∧ s.step t cap true c cs = .ok s') ∨
      ∃ e, s'.noted = e :: s.noted ∧ s.step t cap true c cs = .error e ∧ s.Stalls t e := by
  cases step_moves hrest h with
  | cut full => exact .inl ⟨rfl, (Moves.cut full).step hrest⟩
  | lost room missing => exact .inl ⟨rfl, (Moves.lost room missing).step hrest⟩
  | skip room found rest unmatched =>
    exact .inl ⟨rfl, (Moves.skip room found rest unmatched).step hrest⟩
  | take room found matched some =>
    exact .inl ⟨rfl, (Moves.take room found matched some).step hrest⟩
  | @note st _ _ index rule m room found rest matched nothing lenient =>
    refine .inr ⟨⟨st.name, index, s.offset⟩, rfl, ?_, rfl, st, rule, m, found, rfl, matched,
      nothing⟩
    simp only [step, if_neg (Nat.not_le.2 room), found, matched, nothing]
    rfl

theorem run_error {e : EmptyMatch} (hrest : s.rest = c :: cs)
    (hstep : s.step t cap true c cs = .error e) : s.run t cap true = .error e := by
  rw [run.eq_def]
  split
  · next hr => cases hrest.symm.trans hr
  · next hr =>
    obtain ⟨rfl, rfl⟩ := List.cons.inj (hrest.symm.trans hr)
    split
    · next he => exact (hstep.symm.trans he).symm
    · next hs => cases hstep.symm.trans hs

/-- What is noted stays noted. -/
theorem run_noted (h : s.run t cap false = .ok s') : ∃ later, s'.noted = later ++ s.noted := by
  have keeps : ∀ {u u' : Scan}, u.rest ≠ [] → Moves t cap false u u' →
      (∃ later, u.noted = later ++ s.noted) → ∃ later, u'.noted = later ++ s.noted := by
    rintro u u' - hm ⟨later, hlater⟩
    cases hm with
    | cut | lost | skip | take => exact ⟨later, hlater⟩
    | @note st c cs index => exact ⟨⟨st.name, index, u.offset⟩ :: later, by simp [hlater]⟩
  exact (run_moves keeps ⟨[], rfl⟩ h).1

/-- A scan notes nothing and is the same when it is strict, or it passes a place where it notes the
first empty match, on which a strict one fails. -/
theorem run_strict (h : s.run t cap false = .ok s') :
    (s'.noted = s.noted ∧ s.run t cap true = .ok s') ∨
      ∃ e later mid, s'.noted = later ++ e :: s.noted ∧ s.run t cap true = .error e ∧
        Passes t cap s mid ∧ mid.rest ≠ [] ∧ mid.Stalls t e := by
  fun_induction Scan.run t cap false s with
  | case1 s hr =>
    obtain rfl := Except.ok.inj h
    exact .inl ⟨rfl, run_nil hr⟩
  | case2 s c cs hr e he => cases h
  | case3 s c cs hr next hstep ih =>
    rcases step_strict hr hstep with ⟨hnoted, hstrict⟩ | ⟨e, hnoted, hstrict, hstalls⟩
    · rw [run_step hr hstrict, ← hnoted]
      rcases ih h with hsame | ⟨e, later, mid, hend, herror, hmid, hrest⟩
      · exact .inl hsame
      · exact .inr ⟨e, later, mid, hend, herror, .step hr hstep hmid, hrest⟩
    · obtain ⟨later, hlater⟩ := run_noted h
      rw [hnoted] at hlater
      exact .inr ⟨e, later, s, hlater, run_error hr hstrict, .here s, by simp [hr], hstalls⟩

end Scan

/-! ### Lines -/

/-- What an empty match tells of a line: in front of a character of the line, at the column told,
the rule told is the first one of the state told that matches the rest of the line, and it takes
nothing there. -/
structure EmptyMatch.PointsAt (e : EmptyMatch) (t : RuleTable) (line : List Char) : Prop where
  place : ∃ front rest, line = front ++ rest ∧ rest ≠ [] ∧ e.offset = Text.width front ∧
    ∃ id st rule m, t.find? e.state = some id ∧ t.state? id = some st ∧
      st.rules[e.rule]? = some rule ∧ (∀ q ∈ st.rules.take e.rule, q.regex.find rest = none) ∧
        rule.regex.find rest = some m ∧ m.start = 0 ∧ m.stop = 0

theorem Scan.Stalls.pointsAt {t : RuleTable} {line : List Char} {mid : Scan} {e : EmptyMatch}
    (h : mid.Stalls t e) (hn : (t.states.map (·.name)).Nodup) (hc : Scan.Covers t line mid)
    (hne : mid.rest ≠ []) : e.PointsAt t line := by
  obtain ⟨hoffset, st, rule, m, hst, hname, hfirst, hzero⟩ := h
  obtain ⟨-, text, -, htext, hwidth⟩ := hc
  obtain ⟨before, after, hrules, hindex, hfind, hbefore⟩ := firstMatch_eq_some hfirst
  rw [Nat.zero_add] at hindex
  have hstart : m.start = 0 := by
    have := (Regex.find_within hfind).1
    omega
  refine ⟨text, mid.rest, htext.symm, hne, hoffset.trans hwidth, mid.state, st, rule, m, ?_, hst,
    ?_, ?_, hfind, hstart, hzero⟩
  · exact (RuleTable.find?_eq_some_iff hn).2 ⟨st, hst, hname.symm⟩
  · rw [hrules, hindex, List.getElem?_append_right (Nat.le_refl _), Nat.sub_self]
    rfl
  · rw [hrules, hindex, List.take_left]
    exact hbefore

namespace Tokenizer

/-- What a lenient scan makes known when it has come to the end of the line. -/
theorem tokenizeNoting_eq {t : Tokenizer} {state : StateId} {line : List Char} {s : Scan}
    (h : t.scan false state line = .ok s) :
    t.tokenizeNoting state line = (rowOf s, s.noted.reverse) := by
  rw [tokenizeNoting, h]

theorem tokenize_eq {t : Tokenizer} {state : StateId} {line : List Char} {s : Scan}
    (h : t.scan false state line = .ok s) : t.tokenize state line = rowOf s := by
  rw [tokenize, tokenizeNoting_eq h]

/-- A strict scan finds what a lenient one finds if that notes nothing, and fails on the first empty
match that is noted. -/
theorem tokenizeStrictly_eq (t : Tokenizer) (state : StateId) (line : List Char) :
    t.tokenizeStrictly state line =
      match (t.tokenizeNoting state line).2 with
      | [] => .ok (t.tokenizeNoting state line).1
      | e :: _ => .error e := by
  obtain ⟨s, hs⟩ := Scan.run_lenient t.table t.cap (t.enter state line)
  rw [tokenizeNoting_eq hs, tokenizeStrictly, scan]
  have hnone : (t.enter state line).noted = [] := rfl
  rcases Scan.run_strict hs with ⟨hnoted, hstrict⟩ | ⟨e, later, -, hnoted, hstrict, -⟩
  · rw [hstrict, hnoted, hnone]
    rfl
  · rw [hstrict, hnoted, hnone, List.reverse_append]
    rfl

/-- **Strict and lenient scans agree.** With a closed table whose states have different names, such as
any that has been built, whatever its expressions match: a lenient scan comes to the end of every line.
A strict one finds a row exactly when the lenient one finds that row and notes nothing; it fails exactly
on the first empty match that the lenient one notes, which points at a rule that takes nothing in front
of a character of the line. -/
theorem tokenizeStrictly_agrees {table : RuleTable} (closed : table.Closed)
    (distinct : (table.states.map (·.name)).Nodup) (cap : Nat) (state : StateId)
    (line : List Char) :
    let t : Tokenizer := ⟨table, cap⟩
    (∃ s, t.scan false state line = .ok s ∧
        t.tokenizeNoting state line = (rowOf s, s.noted.reverse)) ∧
      (∀ row, t.tokenizeStrictly state line = .ok row ↔ t.tokenizeNoting state line = (row, [])) ∧
      ∀ e, (t.tokenizeStrictly state line = .error e ↔
          (t.tokenizeNoting state line).2.head? = some e) ∧
        (t.tokenizeStrictly state line = .error e → e.PointsAt table line) := by
  intro t
  obtain ⟨s, hs⟩ := Scan.run_lenient table cap (t.enter state line)
  have hscan : t.scan false state line = .ok s := hs
  refine ⟨⟨s, hscan, tokenizeNoting_eq hscan⟩, fun row => ?_, fun e => ⟨?_, fun he => ?_⟩⟩
  · rw [tokenizeStrictly_eq]
    generalize t.tokenizeNoting state line = found
    obtain ⟨row', _ | ⟨e, more⟩⟩ := found
    · simp
    · simp
  · rw [tokenizeStrictly_eq]
    cases (t.tokenizeNoting state line).2 <;> simp
  · have hcovers : Scan.Covers table line (t.enter state line) :=
      enter_covers (t := t) closed state line
    rcases Scan.run_strict hs with ⟨-, hstrict⟩ | ⟨e', -, mid, -, hstrict, hmid, hne, hstalls⟩
    · rw [tokenizeStrictly, scan, hstrict] at he
      cases he
    · rw [tokenizeStrictly, scan, hstrict] at he
      obtain rfl := Except.error.inj he
      exact hstalls.pointsAt distinct (hcovers.passes closed hmid) hne

/-- A table with a rule that takes nothing in front of a word and behind it. -/
def edgeCalls : List DraftCall :=
  [.rule "start" {pattern := "\\s+", token := .kind .text},
    .rule "start" {pattern := "\\b", token := .kind .keyword}]

theorem tokenizeStrictly_agrees_edge : ∃ table, (TableDraft.made edgeCalls).build = .ok table ∧
    let t : Tokenizer := ⟨table, 5⟩
    let e : EmptyMatch := ⟨"start", 1, 1⟩
    t.tokenizeStrictly .start " ab".toList = .error e ∧ e.PointsAt table " ab".toList := by
  have hok : (TableDraft.made edgeCalls).build.isOk = true := by decide +kernel
  cases h : (TableDraft.made edgeCalls).build with
  | error e => simp [h, Except.isOk, Except.toBool] at hok
  | ok table =>
    have hfirst : ((⟨table, 5⟩ : Tokenizer).tokenizeNoting .start " ab".toList).2.head? =
        some ⟨"start", 1, 1⟩ := by
      rw [show table = (TableDraft.made edgeCalls).build.toOption.getD ⟨[]⟩ by rw [h]; rfl]
      decide +kernel
    obtain ⟨-, -, hfails⟩ := tokenizeStrictly_agrees (TableDraft.build_closed h)
      (RuleTable.nodup_names h) 5 .start " ab".toList
    have herror := (hfails ⟨"start", 1, 1⟩).1.2 hfirst
    exact ⟨table, rfl, herror, (hfails _).2 herror⟩

end Tokenizer

end CodeEditing.Lexing
