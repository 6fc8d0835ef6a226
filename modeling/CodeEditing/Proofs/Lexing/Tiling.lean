import CodeEditing.Proofs.Lexing.Build
import CodeEditing.Proofs.Lexing.Walk

/-! Tokens tile the line.

Whatever a scan does, the tokens it has so far lie side by side from the first column on and hold
exactly the text it has used up (`Scan.Covers`). Every way to emit tokens keeps that: a token that
joins the one before it, a group rule with gaps between its groups, with groups that took nothing
or begin too early (`Covers.pushGroups`), skipped characters and the rest of a line that is cut. Of
matching nothing is used but what a `Regex` tells of itself: a match lies in the text that is read, its
groups lie in the match, and it is the same with its groups and without. With a closed table the state
stays one of the table, so no part of a line is lost, and `tokenize_tiles` says it of whole lines. -/
namespace CodeEditing.Lexing

/-! ### Tiles -/

theorem tiles_append {column : Nat} {a b : List Token} :
    Tiles column (a ++ b) ↔ Tiles column a ∧ Tiles (column + Text.width (textOf a)) b := by
  induction a generalizing column with
  | nil => simp [Tiles]
  | cons t ts ih =>
    simp only [List.cons_append, Tiles, textOf_cons, Text.width_append, ih, and_assoc]
    constructor
    · rintro ⟨rfl, hv, ha, hb⟩
      refine ⟨rfl, hv, ha, ?_⟩
      rwa [Token.stop, Nat.add_assoc] at hb
    · rintro ⟨rfl, hv, ha, hb⟩
      refine ⟨rfl, hv, ha, ?_⟩
      rwa [Token.stop, Nat.add_assoc]

/-- A token of a tiling stands where the text before it ends. -/
theorem Tiles.split {column : Nat} {ts : List Token} {t : Token} (h : Tiles column ts)
    (ht : t ∈ ts) : ∃ a b, textOf ts = a ++ t.value ++ b ∧ t.start = column + Text.width a := by
  obtain ⟨before, after, rfl⟩ := List.append_of_mem ht
  refine ⟨textOf before, textOf after, by simp, ?_⟩
  exact (tiles_append.1 h).2.1

/-- The value of a token of a tiling is the slice of the text between its ends. -/
theorem Tiles.between_eq {ts : List Token} {t : Token} (h : Tiles 0 ts) (ht : t ∈ ts) :
    Text.between t.start t.stop (textOf ts) = t.value := by
  obtain ⟨a, b, htext, hstart⟩ := h.split ht
  rw [Nat.zero_add] at hstart
  have hstop : t.stop = Text.width (a ++ t.value) := by rw [Token.stop, hstart, Text.width_append]
  rw [Text.between, htext, hstop, hstart, Text.before_width, Text.after_width]

/-- The last token of a tiling ends where the text ends. -/
theorem Tiles.stop_getLast {ts : List Token} {t : Token} (h : Tiles 0 ts)
    (ht : t ∈ ts.getLast?) : t.stop = Text.width (textOf ts) := by
  obtain ⟨before, rfl⟩ := List.getLast?_eq_some_iff.1 ht
  have hstart : t.start = 0 + Text.width (textOf before) := (tiles_append.1 h).2.1
  rw [Token.stop, hstart]
  simp

/-! ### Emitting tokens -/

/-- The groups of a rule lie in the match. -/
theorem Rule.groupsOf_within {rule : Rule} {kinds : List Kind} {m : Match} {last : Nat}
    (hm : m.Within 0 last) :
    ∀ p ∈ rule.groupsOf kinds m, ∀ g ∈ p.2, g.start ≤ g.stop ∧ g.stop ≤ m.stop := by
  intro p hp g hg
  obtain ⟨i, -, hi⟩ := List.mem_map.1 (List.of_mem_zip hp).2
  rw [← hi] at hg
  exact (hm.groups g (List.mem_of_find?_eq_some hg)).2

/-- Tokens, latest first, that lie side by side from the first column on and hold `text`. -/
structure Covers (text : List Char) (out : List Token) : Prop where
  tiles : Tiles 0 out.reverse
  text_eq : textOf out.reverse = text

namespace Covers
variable {text value : List Char} {out : List Token}

theorem nil : Covers [] [] := ⟨trivial, rfl⟩

/-- A token with text that begins where the text so far ends, joined to the latest one or not. -/
theorem push (h : Covers text out) (hv : value ≠ []) (merge : Bool) (kind : Kind) :
    Covers (text ++ value) (Lexing.push merge kind value (Text.width text) out) := by
  obtain ⟨ht, rfl⟩ := h
  cases out with
  | nil => exact ⟨⟨rfl, hv, trivial⟩, by simp [Lexing.push]⟩
  | cons last more =>
    rw [Lexing.push]
    rw [List.reverse_cons, tiles_append] at ht
    split
    · refine ⟨?_, by simp⟩
      rw [List.reverse_cons, tiles_append]
      exact ⟨ht.1, ht.2.1, by simp [hv], trivial⟩
    · refine ⟨?_, by simp⟩
      rw [List.reverse_cons, tiles_append, List.reverse_cons, tiles_append]
      exact ⟨⟨ht.1, ht.2⟩, by simp, hv, trivial⟩

/-- Text that may be empty gives a token when there is some. -/
theorem pushSome (h : Covers text out) (value : List Char) (merge : Bool) (kind : Kind) :
    Covers (text ++ value)
      (if value.isEmpty then out else Lexing.push merge kind value (Text.width text) out) := by
  cases value with
  | nil => simpa using h
  | cons c cs => exact h.push (by simp) merge kind

/-- The tokens of a group rule hold all that it matched, whatever its groups have taken. -/
theorem pushGroups {matched : List Char} {cursor : Nat} {groups : List (Kind × Option Capture)}
    (merge : Bool)
    (hg : ∀ p ∈ groups, ∀ g ∈ p.2, g.start ≤ g.stop ∧ g.stop ≤ matched.length)
    (hc : cursor ≤ matched.length) (h : Covers (text ++ matched.take cursor) out) :
    Covers (text ++ matched)
      (Lexing.pushGroups merge matched (Text.width text) cursor groups out) := by
  have hcut : ∀ {i j : Nat}, i ≤ j → (text ++ matched.take i) ++ (matched.take j).drop i =
      text ++ matched.take j := by
    intro i j hij
    have := List.take_append_drop i (matched.take j)
    rw [List.take_take, Nat.min_eq_left hij] at this
    rw [List.append_assoc, this]
  induction groups generalizing cursor out with
  | nil =>
    have := h.pushSome (matched.drop cursor) merge .text
    rw [List.append_assoc, List.take_append_drop, Text.width_append] at this
    exact this
  | cons p more ih =>
    have hmore : ∀ q ∈ more, ∀ g ∈ q.2, g.start ≤ g.stop ∧ g.stop ≤ matched.length :=
      fun q hq => hg q (by simp [hq])
    obtain ⟨kind, group⟩ := p
    cases group with
    | none => exact ih hmore hc h
    | some g =>
      obtain ⟨hle, hstop⟩ := hg (kind, some g) (by simp) g rfl
      rw [Lexing.pushGroups]
      split
      · exact ih hmore hc h
      · next hskip =>
        simp only [Bool.or_eq_true, decide_eq_true_eq, not_or, Nat.not_lt] at hskip
        obtain ⟨hne, hcur⟩ := hskip
        refine ih hmore hstop ?_
        have hgap := h.pushSome ((matched.take g.start).drop cursor) merge .text
        rw [hcut hcur, Text.width_append] at hgap
        have hsome : (matched.take g.stop).drop g.start ≠ [] := by
          rw [ne_eq, List.drop_eq_nil_iff, List.length_take]
          omega
        have := hgap.push hsome merge kind
        rw [hcut hle, Text.width_append] at this
        exact this

/-- The tokens of a rule hold all that it matched. -/
theorem emit {rest : List Char} {rule : Rule} {e : Match.Span} (h : Covers text out)
    (he : rule.regex.find rest = some e) (hstop : 0 < e.stop) :
    Covers (text ++ rest.take e.stop) (rule.emit rest e.stop (Text.width text) out) := by
  have hlen : (rest.take e.stop).length = e.stop := by
    rw [List.length_take, Nat.min_eq_left (Regex.find_within he).2]
  have hne : rest.take e.stop ≠ [] := List.ne_nil_of_length_pos (by omega)
  unfold Rule.emit
  split
  · exact h.push hne _ _
  · exact h.push hne _ _
  · next kinds hkinds =>
    obtain ⟨m, hm, rfl⟩ := Regex.exists_captures he
    rw [hm]
    refine pushGroups _ (fun p hp g hg => ?_) (Nat.zero_le _) (by simpa using h)
    rw [hlen]
    exact Rule.groupsOf_within (rule.regex.within hm) p hp g hg

end Covers

/-! ### Scans -/

/-- A scan of a line in a state of the table: its tokens hold all of the line that is used up. -/
structure Scan.Covers (t : RuleTable) (line : List Char) (s : Scan) : Prop where
  state : s.state.index < t.size
  covers : ∃ text, Lexing.Covers text s.tokens ∧ text ++ s.rest = line ∧ s.offset = Text.width text

namespace Scan.Covers
variable {t : RuleTable} {line : List Char} {s s' : Scan} {cap : Nat} {strict : Bool}

/-- A character less to read. -/
theorem skip {c : Char} {cs : List Char} (h : Scan.Covers t line s) (hs : s.rest = c :: cs)
    (kind : Kind) : Scan.Covers t line (s.skip kind c cs) := by
  obtain ⟨hst, text, hc, htext, hoff⟩ := h
  refine ⟨hst, text ++ [c], ?_, by simpa [Scan.skip, hs] using htext, by simp [Scan.skip, hoff]⟩
  rw [Scan.skip, hoff]
  exact hc.push (by simp) true kind

/-- Every step keeps what is used up covered. -/
theorem moves (ht : t.Closed) (hne : s.rest ≠ []) (hm : Scan.Moves t cap strict s s')
    (h : Scan.Covers t line s) : Scan.Covers t line s' := by
  cases hm with
  | cut full =>
    obtain ⟨-, text, hc, htext, hoff⟩ := h
    refine ⟨ht.start, text ++ s.rest, ?_, by simpa [Scan.cut] using htext, by simp [Scan.cut, hoff]⟩
    rw [Scan.cut, hoff]
    exact hc.push hne false .text
  | lost room missing =>
    obtain ⟨st, hst⟩ := RuleTable.Closed.state?_isSome h.state
    rw [missing] at hst
    simp at hst
  | skip room found rest unmatched => exact h.skip rest _
  | @note st c cs index rule m room found rest matched nothing lenient =>
    obtain ⟨hstate, hcovers⟩ := h.skip rest st.defaultKind
    exact ⟨hstate, hcovers⟩
  | @take st index rule m room found matched some =>
    obtain ⟨before, after, hrules, -, hfind, -⟩ := firstMatch_eq_some matched
    have hrule : rule ∈ st.rules := by simp [hrules]
    have hst : st ∈ t.states := List.mem_of_getElem? found
    obtain ⟨hstate, text, hc, htext, hoff⟩ := h
    refine ⟨?_, text ++ s.rest.take m.stop, ?_, ?_, ?_⟩
    · rw [Scan.take]
      cases hn : rule.next with
      | none => exact hstate
      | some next => exact ht.leads st hst rule hrule next hn
    · rw [Scan.take, hoff]
      exact hc.emit hfind some
    · rw [Scan.take, List.append_assoc, List.take_append_drop, htext]
    · rw [Scan.take, hoff, Text.width_append]

end Scan.Covers

namespace Tokenizer

/-- A scan begins in the state it is given, or in the first one if there is no such state. -/
theorem enter_covers {t : Tokenizer} (ht : t.table.Closed) (state : StateId) (line : List Char) :
    Scan.Covers t.table line (t.enter state line) := by
  refine ⟨?_, [], .nil, rfl, rfl⟩
  rw [enter]
  split
  · next h =>
    obtain ⟨st, hst⟩ := Option.isSome_iff_exists.1 h
    exact (List.getElem?_eq_some_iff.1 hst).1
  · exact ht.start

/-- What is told of the tokens of a line: they lie side by side from its beginning to its end, and
each holds the text between its ends. -/
structure Tiling (line : List Char) (tokens : List Token) : Prop where
  tiles : Tiles 0 tokens
  text : textOf tokens = line
  stop : ∀ t ∈ tokens.getLast?, t.stop = Text.width line
  value : ∀ t ∈ tokens, Text.between t.start t.stop line = t.value

theorem Tiling.ofCovers {line : List Char} {out : List Token} (h : Covers line out) :
    Tiling line out.reverse := by
  obtain ⟨ht, rfl⟩ := h
  exact ⟨ht, rfl, fun _ => ht.stop_getLast, fun _ => ht.between_eq⟩

/-- **Tokens tile the line.** With a closed table, such as any that has been built
(`TableDraft.build_closed`), whatever its expressions match, the cap and the state a line starts in, the
scan comes to the end of the line, its tokens tile the line, and it ends in a state of the table; on an
empty line this is the state it started in. -/
theorem tokenize_tiles {table : RuleTable} (closed : table.Closed) (cap : Nat) (state : StateId)
    (line : List Char) :
    let t : Tokenizer := ⟨table, cap⟩
    (∃ s, t.scan false state line = .ok s ∧ s.rest = [] ∧ t.tokenize state line = rowOf s) ∧
      Tiling line (t.tokenize state line).tokens ∧
      (t.tokenize state line).endState.index < table.size ∧
      (line = [] → (t.tokenize state line).endState =
        if (table.state? state).isSome then state else .start) := by
  intro t
  have ht : t.table.Closed := closed
  obtain ⟨s, hs⟩ := Scan.run_lenient table cap (t.enter state line)
  have hscan : t.scan false state line = .ok s := hs
  have hrow : t.tokenize state line = rowOf s := by rw [tokenize, tokenizeNoting, hscan]
  obtain ⟨hc, hrest⟩ := Scan.run_moves (P := Scan.Covers table line)
    (fun hne hm hp => hp.moves ht hne hm) (enter_covers ht state line) hs
  obtain ⟨text, hcover, htext, -⟩ := hc.covers
  rw [hrest, List.append_nil] at htext
  subst htext
  refine ⟨⟨s, hscan, hrest, hrow⟩, ?_, ?_, fun hline => ?_⟩
  · rw [hrow]
    exact Tiling.ofCovers hcover
  · rw [hrow]
    exact hc.state
  · subst hline
    have : s = t.enter state [] := by
      rw [Scan.run] at hs
      exact (Except.ok.inj hs).symm
    rw [hrow, this]
    rfl

/-- A table with nested groups, a pattern that is not held at the start throughout, and one that may
take nothing in front of a word. -/
def unheldDraft : TableDraft :=
  (({} : TableDraft).rules "start"
    [{pattern := "(x(y)?)-?(z)?", token := .groups [.keyword, .string, .identifier], merge := true,
      next := some "word"},
     {pattern := "a)|(?:b", token := .kind .comment}]).rules "word"
    [{pattern := "\\b", token := .kind .keyword}]

theorem unheldDraft_built : ∃ table, unheldDraft.build = .ok table := by
  have hok : unheldDraft.build.isOk = true := by decide +kernel
  cases h : unheldDraft.build with
  | error e => simp [h, Except.isOk, Except.toBool] at hok
  | ok table => exact ⟨table, rfl⟩

theorem tokenize_tiles_unheld : ∃ table, unheldDraft.build = .ok table ∧
    Tiling "éabxy-zé".toList ((⟨table, 3⟩ : Tokenizer).tokenize ⟨7⟩ "éabxy-zé".toList).tokens := by
  obtain ⟨table, h⟩ := unheldDraft_built
  have htiles := tokenize_tiles (TableDraft.build_closed h) 3 ⟨7⟩ "éabxy-zé".toList
  exact ⟨table, h, htiles.2.1⟩

end Tokenizer

end CodeEditing.Lexing
