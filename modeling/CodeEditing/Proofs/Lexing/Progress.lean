import CodeEditing.Proofs.Lexing.CoffeeTable
import CodeEditing.Proofs.Lexing.Strict

/-! Rules that take a character wherever they match.

Building a table only tries each pattern on the empty text, and a pattern that does not match there
may still match in front of other texts without taking anything. In a table that progresses no rule
does, and strict scans find what lenient ones do (`RuleTable.Progresses.tokenizeStrictly_eq`). A
rule whose draft fits is of that sort, for every match takes as many characters as its pattern tells
(`RuleDraft.Fits.progress`); so are all rules of CoffeeScript (`Coffee.table_never_stalls`). -/
namespace CodeEditing.Lexing

/-- No rule matches without taking a character. -/
def RuleTable.Progresses (t : RuleTable) : Prop :=
  ∀ st ∈ t.states, ∀ rule ∈ st.rules, ∀ rest m, rule.regex.find rest = some m → 0 < m.stop

/-- Nothing stalls a scan. -/
theorem RuleTable.Progresses.not_stalls {t : RuleTable} (h : t.Progresses) {s : Scan}
    {e : EmptyMatch} : ¬ s.Stalls t e := by
  rintro ⟨-, st, rule, m, hst, -, hfirst, hzero⟩
  obtain ⟨before, after, hrules, -, hfind, -⟩ := firstMatch_eq_some hfirst
  have hrule : rule ∈ st.rules := hrules ▸ List.mem_append_right _ List.mem_cons_self
  have hpos : 0 < m.stop := h st (List.mem_of_getElem? hst) rule hrule _ m hfind
  exact Nat.ne_of_gt hpos hzero

/-- A strict scan finds what a lenient one finds. -/
theorem RuleTable.Progresses.tokenizeStrictly_eq {table : RuleTable} (h : table.Progresses)
    (cap : Nat) (state : StateId) (line : List Char) :
    let t : Tokenizer := ⟨table, cap⟩
    t.tokenizeStrictly state line = .ok (t.tokenize state line) := by
  intro t
  obtain ⟨s, hs⟩ := Scan.run_lenient table cap (t.enter state line)
  have hscan : t.scan false state line = .ok s := hs
  rw [Tokenizer.tokenize_eq hscan, Tokenizer.tokenizeStrictly, Tokenizer.scan]
  rcases Scan.run_strict hs with ⟨-, hstrict⟩ | ⟨e, -, mid, -, -, -, -, hstalls⟩
  · rw [hstrict]
    rfl
  · exact absurd hstalls h.not_stalls

/-! ### Rules that fit -/

/-- A rule takes a character wherever it matches when that is plain of its pattern. -/
theorem RuleDraft.Fits.progress {names : List String} {d : RuleDraft} {r : Rule} (h : d.Fits names)
    (hr : d.Compiled Matcher.regex? names r) {rest : List Char} {e : Match.Span}
    (he : r.regex.find rest = some e) : 0 < e.stop := by
  obtain ⟨p, hp, hfit⟩ := (Option.any_eq_true _ _).1 h
  simp only [Bool.and_eq_true] at hfit
  obtain ⟨⟨⟨hsome, hheld⟩, -⟩, -⟩ := hfit
  rw [compiled_regex hr hp] at he
  obtain ⟨m, hm, rfl⟩ := Regex.exists_captures he
  obtain ⟨t, htakes, hstop⟩ := Pattern.held_sound hheld hm
  show 0 < m.stop
  exact hstop ▸ htakes.index_lt hsome

/-- A table progresses when all its rules fit. -/
theorem TableDraft.build_progresses {d : TableDraft} {t : RuleTable} {states : List StateDraft}
    (hbuild : d.build = .ok t) (ho : d.ordered = some states)
    (h : ∀ s ∈ states, ∀ r ∈ s.rules, r.Fits (states.map (·.name))) : t.Progresses := by
  obtain ⟨all, hall, -, hstates⟩ := TableDraft.build_eq_ok hbuild
  obtain rfl := Option.some.inj (ho.symm.trans hall)
  intro st hst rule hrule rest m hm
  obtain ⟨s, hs, hcompiled⟩ := exists_related hstates hst
  obtain ⟨r, hr, hdraft⟩ := exists_related hcompiled.rules hrule
  exact (h s hs r hr).progress hdraft hm

namespace Coffee

theorem table_progresses : table.Progresses :=
  TableDraft.build_progresses build_eq ordered_eq states_fit

/-- **The CoffeeScript table never stalls.** Its draft can be built; in front of whatever text, no
rule of any of its states matches without taking a character; and whatever the cap, the state a line
starts in and the line, a strict scan finds a row, the one a lenient scan finds. -/
theorem table_never_stalls : draft.build = .ok table ∧ table.Progresses ∧
    ∀ (cap : Nat) (state : StateId) (line : List Char),
      let t : Tokenizer := ⟨table, cap⟩
      t.tokenizeStrictly state line = .ok (t.tokenize state line) :=
  ⟨build_eq, table_progresses, table_progresses.tokenizeStrictly_eq⟩

end Coffee

end CodeEditing.Lexing
