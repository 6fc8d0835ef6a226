import CodeEditing.Proofs.Lexing.Tiling
import CodeEditing.Proofs.Text.Bounds

/-! Scans stay within the line.

A scan cuts what is left of a line off at a column, takes what a rule has matched from its beginning,
and takes the groups of the match and the gaps between them from that. `Scan.step?` is a step of a
scan in which each of these cuts can go wrong, as can the search for the state the scan is in, and
`Scan.run?` a run of such steps that have to get on. A scan whose tokens hold what is used up of the
line stands at a character boundary, and a match lies in the text it was found in, so nothing goes
wrong (`tokenizeLines?_eq`). -/
namespace CodeEditing.Lexing

/-! ### Steps -/

/-- Adds the tokens of a group rule. -/
def pushGroups? (merge : Bool) (matched : List Char) (start : Nat) :
    Nat → List (Kind × Option Capture) → List Token → Option (List Token)
  | cursor, [], out =>
    if cursor < matched.length then do
      let rest ← Text.part? cursor matched.length matched
      some (push merge .text rest (start + Text.width (matched.take cursor)) out)
    else some out
  | cursor, (_, none) :: more, out => pushGroups? merge matched start cursor more out
  | cursor, (kind, some g) :: more, out =>
    if g.start = g.stop || g.start < cursor then pushGroups? merge matched start cursor more out
    else do
      let out ←
        if cursor < g.start then do
          let gap ← Text.part? cursor g.start matched
          some (push merge .text gap (start + Text.width (matched.take cursor)) out)
        else some out
      let value ← Text.part? g.start g.stop matched
      pushGroups? merge matched start g.stop more
        (push merge kind value (start + Text.width (matched.take g.start)) out)

/-- Adds the tokens of a match of a rule in a text. -/
def Rule.emit? (rule : Rule) (rest : List Char) (stop start : Nat) (out : List Token) :
    Option (List Token) := do
  let matched ← Text.part? 0 stop rest
  match rule.token with
  | .kind k => some (push rule.merge k matched start out)
  | .classify f => some (push rule.merge (f matched) matched start out)
  | .groups kinds =>
    match rule.regex.captures rest with
    | none => some (push rule.merge .text matched start out)
    | some m => pushGroups? rule.merge matched start 0 (rule.groupsOf kinds m) out

/-- Takes one character of what is left. -/
def Scan.skip? (s : Scan) (kind : Kind) (rest : List Char) : Option Scan := do
  let piece ← Text.part? 0 1 rest
  some {s with
    offset := s.offset + Text.width piece
    rest := rest.drop 1
    tokens := push true kind piece s.offset s.tokens}

/-- Takes the text a rule matched. -/
def Scan.take? (s : Scan) (rule : Rule) (m : Match.Span) (rest : List Char) : Option Scan := do
  let tokens ← rule.emit? rest m.stop s.offset s.tokens
  some {s with
    state := rule.next.getD s.state
    offset := s.offset + Text.width (rest.take m.stop)
    rest := rest.drop m.stop
    tokens}

/-- One step, in a line. -/
def Scan.step? (t : RuleTable) (cap : Nat) (line : List Char) (s : Scan) : Option Scan := do
  let (_, rest) ← Text.cut? s.offset line
  if s.tokens.length ≥ cap then
    some {s with
      state := .start
      offset := s.offset + Text.width rest
      rest := []
      tokens := push false .text rest s.offset s.tokens}
  else
    let st ← t.state? s.state
    match firstMatch rest 0 st.rules with
    | none => s.skip? st.defaultKind rest
    | some (index, rule, m) =>
      if m.stop = 0 then do
        let s' ← s.skip? st.defaultKind rest
        some {s' with noted := ⟨st.name, index, s.offset⟩ :: s.noted}
      else s.take? rule m rest

/-- Steps to the end of the line, each of which has to come closer to it. -/
def Scan.run? (t : RuleTable) (cap : Nat) (line : List Char) (s : Scan) : Option Scan :=
  if s.offset < Text.width line then
    match s.step? t cap line with
    | none => none
    | some s' => if s.offset < s'.offset then run? t cap line s' else none
  else some s
termination_by Text.width line - s.offset

/-! ### Within a match -/

theorem pushGroups?_eq {matched : List Char} {cursor : Nat} {groups : List (Kind × Option Capture)}
    (merge : Bool) (start : Nat)
    (hg : ∀ p ∈ groups, ∀ g ∈ p.2, g.start ≤ g.stop ∧ g.stop ≤ matched.length)
    (hc : cursor ≤ matched.length) (out : List Token) :
    pushGroups? merge matched start cursor groups out =
      some (pushGroups merge matched start cursor groups out) := by
  induction groups generalizing cursor out with
  | nil =>
    rw [pushGroups?, pushGroups, Text.part?_eq hc (Nat.le_refl _), List.take_length]
    split
    · next hlt => simp [Nat.not_le.2 hlt]
    · next hlt => simp [Nat.not_lt.1 hlt]
  | cons p more ih =>
    have hmore : ∀ q ∈ more, ∀ g ∈ q.2, g.start ≤ g.stop ∧ g.stop ≤ matched.length :=
      fun q hq => hg q (by simp [hq])
    obtain ⟨kind, group⟩ := p
    cases group with
    | none => exact ih hmore hc out
    | some g =>
      obtain ⟨hle, hstop⟩ := hg (kind, some g) (by simp) g rfl
      rw [pushGroups?, pushGroups]
      split
      · exact ih hmore hc out
      · next hskip =>
        simp only [Bool.or_eq_true, decide_eq_true_eq, not_or, Nat.not_lt] at hskip
        obtain ⟨hne, hcur⟩ := hskip
        rw [Text.part?_eq hcur (Nat.le_trans hle hstop), Text.part?_eq hle hstop]
        by_cases hgap : cursor < g.start
        · have hsome : ((matched.take g.start).drop cursor).isEmpty = false := by
            rw [List.isEmpty_eq_false_iff, ne_eq, List.drop_eq_nil_iff, List.length_take]
            omega
          simp only [if_pos hgap, hsome, Option.bind_eq_bind, Option.bind_some]
          exact ih hmore hstop _
        · have hnone : ((matched.take g.start).drop cursor).isEmpty = true := by
            rw [List.isEmpty_iff, List.drop_eq_nil_iff, List.length_take]
            omega
          simp only [if_neg hgap, hnone, Option.bind_eq_bind, Option.bind_some]
          exact ih hmore hstop _

theorem Rule.emit?_eq {rule : Rule} {rest : List Char} {e : Match.Span}
    (h : rule.regex.find rest = some e) (start : Nat) (out : List Token) :
    rule.emit? rest e.stop start out = some (rule.emit rest e.stop start out) := by
  obtain ⟨-, hle⟩ := Regex.find_within h
  rw [emit?, emit, Text.part?_eq (Nat.zero_le _) hle, List.drop_zero, Option.bind_eq_bind,
    Option.bind_some]
  cases rule.token with
  | kind k => rfl
  | classify f => rfl
  | groups kinds =>
    obtain ⟨m, hm, rfl⟩ := Regex.exists_captures h
    rw [hm]
    refine pushGroups?_eq _ _ (fun p hp g hg => ?_) (Nat.zero_le _) out
    rw [List.length_take, Nat.min_eq_left hle]
    exact groupsOf_within (rule.regex.within hm) p hp g hg

/-! ### Within the line -/

namespace Scan
variable {t : RuleTable} {cap : Nat} {line : List Char} {s : Scan}

theorem Covers.cut?_eq (h : Scan.Covers t line s) :
    ∃ text, Text.cut? s.offset line = some (text, s.rest) := by
  obtain ⟨text, -, hline, hoffset⟩ := h.covers
  exact ⟨text, by rw [hoffset, ← hline, Text.cut?_append]⟩

theorem skip?_eq (s : Scan) (kind : Kind) (c : Char) (cs : List Char) :
    s.skip? kind (c :: cs) = some (s.skip kind c cs) := by
  rw [skip?, Text.part?_eq (Nat.zero_le 1) (by simp)]
  simp [skip]

theorem take?_eq {rule : Rule} {m : Match.Span} (h : rule.regex.find s.rest = some m) :
    s.take? rule m s.rest = some (s.take rule m) := by
  rw [take?, Rule.emit?_eq h]
  rfl

/-- The moves of a scan whose tokens hold what is used up. -/
theorem step?_eq (h : Scan.Covers t line s) {s' : Scan} (hm : Scan.Moves t cap false s s') :
    s.step? t cap line = some s' := by
  obtain ⟨text, hcut⟩ := h.cut?_eq
  rw [step?, hcut]
  simp only [Option.bind_eq_bind, Option.bind_some]
  cases hm with
  | cut full =>
    rw [if_pos full]
    rfl
  | lost room missing =>
    obtain ⟨st, hst⟩ := RuleTable.Closed.state?_isSome h.state
    rw [missing] at hst
    cases hst
  | skip room found rest unmatched =>
    rw [if_neg (Nat.not_le.2 room), found, Option.bind_some, unmatched, rest]
    exact s.skip?_eq _ _ _
  | note room found rest matched nothing lenient =>
    rw [if_neg (Nat.not_le.2 room), found, Option.bind_some, matched]
    simp only [if_pos nothing, rest, s.skip?_eq, Option.bind_some]
  | take room found matched some =>
    obtain ⟨before, after, -, -, hfind, -⟩ := firstMatch_eq_some matched
    rw [if_neg (Nat.not_le.2 room), found, Option.bind_some, matched]
    simp only [if_neg (Nat.ne_of_gt some)]
    exact take?_eq hfind

/-- A scan has got to where what is used up ends. -/
theorem Covers.offset_eq (h : Scan.Covers t line s) :
    s.offset + Text.width s.rest = Text.width line := by
  obtain ⟨text, -, hline, hoffset⟩ := h.covers
  rw [hoffset, ← hline, Text.width_append]

/-- Every move gets on. -/
theorem offset_lt_of_moves (h : Scan.Covers t line s) (hne : s.rest ≠ []) {s' : Scan}
    (hm : Scan.Moves t cap false s s') : s.offset < s'.offset := by
  cases hm with
  | cut full => exact Nat.lt_add_of_pos_right (Text.width_pos hne)
  | lost room missing =>
    obtain ⟨st, hst⟩ := RuleTable.Closed.state?_isSome h.state
    rw [missing] at hst
    cases hst
  | skip room found rest unmatched => exact Nat.lt_add_of_pos_right (Char.utf8Size_pos _)
  | note room found rest matched nothing lenient =>
    exact Nat.lt_add_of_pos_right (Char.utf8Size_pos _)
  | @take st index rule m room found matched some =>
    have hsome : s.rest.take m.stop ≠ [] := by
      rw [ne_eq, List.take_eq_nil_iff, not_or]
      exact ⟨Nat.ne_of_gt some, hne⟩
    exact Nat.lt_add_of_pos_right (Text.width_pos hsome)

theorem run?_eq (ht : t.Closed) (h : Scan.Covers t line s) {s' : Scan}
    (hrun : s.run t cap false = .ok s') : s.run? t cap line = some s' := by
  fun_induction Scan.run t cap false s with
  | case1 s hr =>
    have hoffset := h.offset_eq
    rw [hr, Text.width_nil, Nat.add_zero] at hoffset
    rw [run?, if_neg (Nat.not_lt.2 (Nat.le_of_eq hoffset.symm))]
    exact congrArg some (Except.ok.inj hrun)
  | case2 s c cs hr e he => simp at hrun
  | case3 s c cs hr next hstep ih =>
    have hm := Scan.step_moves hr hstep
    have hnext : Scan.Covers t line next := h.moves ht (by simp [hr]) hm
    have hlt : s.offset < Text.width line := by
      have hsome : s.rest ≠ [] := by simp [hr]
      have := Text.width_pos hsome
      have := h.offset_eq
      omega
    have hgets := offset_lt_of_moves h (by simp [hr]) hm
    rw [run?, if_pos hlt, step?_eq h hm]
    simp only [if_pos hgets]
    exact ih hnext hrun

end Scan

/-! ### Lines -/

namespace Tokenizer
variable {t : Tokenizer}

/-- The tokens of a line. -/
def tokenize? (t : Tokenizer) (state : StateId) (line : List Char) : Option Row := do
  let s ← (t.enter state line).run? t.table t.cap line
  some (rowOf s)

def tokenizeFrom? (t : Tokenizer) (state : StateId) : List (List Char) → Option (List Row)
  | [] => some []
  | line :: lines => do
    let row ← t.tokenize? state line
    let rows ← t.tokenizeFrom? row.endState lines
    some (row :: rows)

/-- The tokens of a whole text. -/
def tokenizeLines? (t : Tokenizer) (lines : List (List Char)) : Option (List Row) :=
  t.tokenizeFrom? .start lines

/-- The scan of a line comes to its end, with tokens that hold all of it. -/
theorem exists_scan (ht : t.table.Closed) (state : StateId) (line : List Char) :
    ∃ s, (t.enter state line).run t.table t.cap false = .ok s ∧ t.tokenize state line = rowOf s ∧
      Covers line s.tokens := by
  obtain ⟨s, hs⟩ := Scan.run_lenient t.table t.cap (t.enter state line)
  obtain ⟨hc, hrest⟩ := Scan.run_moves (P := Scan.Covers t.table line)
    (fun hne hm hp => hp.moves ht hne hm) (enter_covers ht state line) hs
  obtain ⟨text, hcover, htext, -⟩ := hc.covers
  rw [hrest, List.append_nil] at htext
  exact ⟨s, hs, by rw [tokenize, tokenizeNoting, scan, hs], htext ▸ hcover⟩

theorem tokenize?_eq (ht : t.table.Closed) (state : StateId) (line : List Char) :
    t.tokenize? state line = some (t.tokenize state line) := by
  obtain ⟨s, hs, hrow, -⟩ := exists_scan ht state line
  rw [tokenize?, Scan.run?_eq ht (enter_covers ht state line) hs, hrow]
  rfl

theorem tokenizeFrom?_eq (ht : t.table.Closed) (state : StateId) (lines : List (List Char)) :
    t.tokenizeFrom? state lines = some (t.tokenizeFrom state lines) := by
  induction lines generalizing state with
  | nil => rfl
  | cons line lines ih =>
    rw [tokenizeFrom?, tokenize?_eq ht, Option.bind_eq_bind, Option.bind_some, ih]
    rfl

/-- With a closed table, going over a text stays within its lines. -/
theorem tokenizeLines?_eq (ht : t.table.Closed) (lines : List (List Char)) :
    t.tokenizeLines? lines = some (t.tokenizeLines lines) := tokenizeFrom?_eq ht .start lines

end Tokenizer

end CodeEditing.Lexing
