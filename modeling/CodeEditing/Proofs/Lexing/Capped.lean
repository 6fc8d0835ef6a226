import CodeEditing.Proofs.Lexing.Tiling

/-! The cap on the tokens of a line cuts its tail off, and nothing else.

The cap is looked at in front of each step only, and a step may join a token that is there already or
add several. `Grows` counts what is added and says that all tokens but the latest stay as they are
(`Grows.cases`); a step adds at most two tokens for each kind of a group rule and one more
(`Scan.Moves.grows`). Hence the bound on the tokens of a line (`Scan.run_length_le`). Two scans with
different caps go the same way until one of them reaches its cap (`Scan.run_capped`), and from there
on the other one only adds to what it has. `Tokenizer.tokenize_capped` puts this together. -/
namespace CodeEditing.Lexing

/-! ### Tokens that are added -/

/-- Tokens, latest first, that have come from others by adding at most `n` and by appending text to the
latest one. -/
inductive Grows (before : List Token) : Nat → List Token → Prop
  | refl {n : Nat} : Grows before n before
  | add {n : Nat} {out : List Token} (t : Token) (h : Grows before n out) :
      Grows before (n + 1) (t :: out)
  | join {n : Nat} {last : Token} {more : List Token} (value : List Char)
      (h : Grows before n (last :: more)) :
      Grows before n ({last with value := last.value ++ value} :: more)

namespace Grows
variable {before out : List Token} {n : Nat}

theorem mono (h : Grows before n out) {m : Nat} (hm : n ≤ m) : Grows before m out := by
  induction h generalizing m with
  | refl => exact .refl
  | add t h ih =>
    cases m with
    | zero => exact absurd hm (Nat.not_succ_le_zero _)
    | succ m => exact .add t (ih (Nat.le_of_succ_le_succ hm))
  | join value h ih => exact .join value (ih hm)

theorem trans {m : Nat} {later : List Token} (h : Grows before n out) (h' : Grows out m later) :
    Grows before (n + m) later := by
  induction h' with
  | refl => exact h.mono (Nat.le_add_right ..)
  | add t h' ih => exact .add t ih
  | join value h' ih => exact .join value ih

theorem length_le (h : Grows before n out) : out.length ≤ before.length + n := by
  induction h with
  | refl => exact Nat.le_add_right ..
  | add t h ih => exact Nat.succ_le_succ ih
  | join value h ih => exact ih

/-- All tokens but the latest stay, and the latest may have more text. -/
theorem cases (h : Grows before n out) : before = [] ∨
    ∃ last more newer value, before = last :: more ∧
      out = newer ++ {last with value := last.value ++ value} :: more := by
  induction h with
  | refl =>
    cases before with
    | nil => exact .inl rfl
    | cons last more => exact .inr ⟨last, more, [], [], rfl, by simp⟩
  | add t h ih =>
    rcases ih with hnil | ⟨last, more, newer, value, hbefore, rfl⟩
    · exact .inl hnil
    · exact .inr ⟨last, more, t :: newer, value, hbefore, rfl⟩
  | @join n latest rest value' h ih =>
    rcases ih with hnil | ⟨last, more, newer, value, hbefore, hout⟩
    · exact .inl hnil
    · refine .inr ?_
      cases newer with
      | nil =>
        obtain ⟨rfl, rfl⟩ := List.cons.inj hout
        exact ⟨last, rest, [], value ++ value', hbefore, by simp⟩
      | cons t newer =>
        obtain ⟨rfl, rfl⟩ := List.cons.inj hout
        exact ⟨last, more, {latest with value := latest.value ++ value'} :: newer, value, hbefore,
          rfl⟩

/-- In the order of the line, the tokens stand in front of those that have come from them. -/
theorem reading (h : Grows before n out) :
    before.reverse.dropLast = out.reverse.take (before.reverse.length - 1) ∧
      ∀ t ∈ before.reverse.getLast?, ∃ u, out.reverse[before.reverse.length - 1]? = some u ∧
        t.kind = u.kind ∧ t.start = u.start ∧ t.value <+: u.value := by
  rcases h.cases with rfl | ⟨last, more, newer, value, rfl, rfl⟩
  · exact ⟨rfl, fun t ht => by cases ht⟩
  · have hlength : (last :: more).reverse.length - 1 = more.reverse.length := by simp
    rw [hlength]
    simp only [List.reverse_cons, List.reverse_append, List.dropLast_concat, List.append_assoc]
    refine ⟨List.take_left.symm, fun t ht => ?_⟩
    rw [List.getLast?_concat] at ht
    obtain rfl := Option.some.inj ht
    exact ⟨{last with value := last.value ++ value}, by simp, rfl, rfl, List.prefix_append ..⟩

theorem push (h : Grows before n out) (merge : Bool) (kind : Kind) (value : List Char)
    (start : Nat) : Grows before (n + 1) (Lexing.push merge kind value start out) := by
  cases out with
  | nil => exact .add _ h
  | cons last more =>
    rw [Lexing.push]
    split
    · exact .mono (.join value h) (Nat.le_succ n)
    · exact .add _ h

theorem pushSome (h : Grows before n out) (merge : Bool) (kind : Kind) (value : List Char)
    (start : Nat) : Grows before (n + 1)
      (if value.isEmpty then out else Lexing.push merge kind value start out) := by
  split
  · exact h.mono (Nat.le_succ n)
  · exact h.push merge kind value start

/-- A group gives a token and a gap in front of it, and there is a gap behind them all. -/
theorem pushGroups (h : Grows before n out) (merge : Bool) (matched : List Char) (start cursor : Nat)
    (groups : List (Kind × Option Capture)) :
    Grows before (n + (2 * groups.length + 1))
      (Lexing.pushGroups merge matched start cursor groups out) := by
  induction groups generalizing n cursor out with
  | nil => exact h.pushSome merge .text _ _
  | cons p more ih =>
    have hfewer : n + (2 * more.length + 1) ≤ n + (2 * (p :: more).length + 1) := by
      rw [List.length_cons]
      omega
    obtain ⟨kind, group⟩ := p
    cases group with
    | none => exact (ih h cursor).mono hfewer
    | some g =>
      rw [Lexing.pushGroups]
      split
      · exact (ih h cursor).mono hfewer
      · have hgap := h.pushSome merge .text ((matched.take g.start).drop cursor)
          (start + Text.width (matched.take cursor))
        refine (ih (hgap.push merge kind _ _) g.stop).mono ?_
        rw [List.length_cons]
        omega

end Grows

/-! ### The most tokens of a step -/

/-- The number of kinds that a group rule gives. -/
def Rule.kindCount (rule : Rule) : Nat :=
  match rule.token with
  | .groups kinds => kinds.length
  | _ => 0

/-- The largest number of kinds that a group rule of the table gives, none if there is no such rule. -/
def RuleTable.mostKinds (t : RuleTable) : Nat :=
  ((t.states.flatMap (·.rules)).map Rule.kindCount).max?.getD 0

theorem RuleTable.kindCount_le {t : RuleTable} {st : LexState} (hst : st ∈ t.states) {rule : Rule}
    (hrule : rule ∈ st.rules) : rule.kindCount ≤ t.mostKinds :=
  List.le_max?_getD_of_mem (List.mem_map_of_mem (List.mem_flatMap_of_mem hst hrule))

theorem Rule.emit_grows (rule : Rule) (rest : List Char) (stop start : Nat) (out : List Token) :
    Grows out (2 * rule.kindCount + 1) (rule.emit rest stop start out) := by
  have hone (kind : Kind) :
      Grows out (2 * rule.kindCount + 1) (push rule.merge kind (rest.take stop) start out) :=
    (Grows.refl.push rule.merge kind _ start).mono (Nat.le_add_left ..)
  rw [Rule.emit]
  split
  · exact hone _
  · exact hone _
  · next kinds hkinds =>
    split
    · exact hone _
    · refine (Grows.pushGroups (n := 0) .refl rule.merge _ start 0 _).mono ?_
      rw [Nat.zero_add, kindCount, hkinds, groupsOf, List.length_zip]
      exact Nat.succ_le_succ (Nat.mul_le_mul_left 2 (Nat.min_le_left ..))

/-- There are not more tokens than characters. -/
theorem Tiles.length_le {column : Nat} {ts : List Token} (h : Tiles column ts) :
    ts.length ≤ (textOf ts).length := by
  induction ts generalizing column with
  | nil => exact Nat.le_refl 0
  | cons t ts ih =>
    obtain ⟨-, hvalue, hmore⟩ := h
    have hsome := List.length_pos_iff.2 hvalue
    have := ih hmore
    rw [textOf_cons, List.length_append, List.length_cons]
    omega

/-! ### Steps and runs -/

namespace Scan
variable {t : RuleTable} {cap : Nat} {strict : Bool} {s s' : Scan}

/-- Every move adds a few tokens at most. -/
theorem Moves.grows (h : Moves t cap strict s s') :
    Grows s.tokens (2 * t.mostKinds + 1) s'.tokens := by
  have hone (merge : Bool) (kind : Kind) (value : List Char) :
      Grows s.tokens (2 * t.mostKinds + 1) (push merge kind value s.offset s.tokens) :=
    (Grows.refl.push merge kind value s.offset).mono (Nat.le_add_left ..)
  cases h with
  | cut full => exact hone false .text s.rest
  | lost room missing => exact .refl
  | skip room found rest unmatched => exact hone true _ _
  | note room found rest matched nothing lenient => exact hone true _ _
  | @take st index rule m room found matched some =>
    obtain ⟨before, after, hrules, -⟩ := firstMatch_eq_some matched
    have hrule : rule ∈ st.rules := hrules ▸ List.mem_append_right _ List.mem_cons_self
    have hmost := RuleTable.kindCount_le (List.mem_of_getElem? found) hrule
    exact (rule.emit_grows s.rest m.stop s.offset s.tokens).mono
      (Nat.succ_le_succ (Nat.mul_le_mul_left 2 hmost))

theorem cut_tokens (s : Scan) : s.cut.tokens = ⟨.text, s.rest, s.offset⟩ :: s.tokens := by
  rw [cut]
  cases s.tokens <;> rfl

/-- A move cuts the line or finds room for more tokens. -/
theorem Moves.cut_or_room (h : Moves t cap strict s s') :
    s' = s.cut ∨ s.tokens.length < cap := by
  cases h with
  | cut full => exact .inl rfl
  | lost room missing => exact .inr room
  | skip room found rest unmatched => exact .inr room
  | note room found rest matched nothing lenient => exact .inr room
  | take room found matched some => exact .inr room

/-- A scan only adds to the tokens it has. -/
theorem run_grows (h : s.run t cap strict = .ok s') : ∃ n, Grows s.tokens n s'.tokens := by
  have hmore : ∀ {u u' : Scan}, u.rest ≠ [] → Moves t cap strict u u' →
      (∃ n, Grows s.tokens n u.tokens) → ∃ n, Grows s.tokens n u'.tokens := by
    rintro u u' - hm ⟨n, hn⟩
    exact ⟨_, hn.trans hm.grows⟩
  exact (run_moves hmore ⟨0, .refl⟩ h).1

/-- A scan has not many more tokens than the cap allows, and as long as something is left there is room
for the one that a cut adds. -/
structure Few (t : RuleTable) (cap : Nat) (s : Scan) : Prop where
  all : s.tokens.length ≤ cap + 2 * t.mostKinds + 1
  left : s.rest ≠ [] → s.tokens.length ≤ cap + 2 * t.mostKinds

theorem Few.moves (h : Few t cap s) (hne : s.rest ≠ []) (hm : Moves t cap strict s s') :
    Few t cap s' := by
  rcases hm.cut_or_room with rfl | hroom
  · refine ⟨?_, fun hleft => absurd rfl hleft⟩
    rw [cut_tokens]
    exact Nat.succ_le_succ (h.left hne)
  · have hgrows := hm.grows.length_le
    have hfew : s'.tokens.length ≤ cap + 2 * t.mostKinds := by omega
    exact ⟨Nat.le_succ_of_le hfew, fun _ => hfew⟩

/-- A line has not many more tokens than the cap allows. -/
theorem run_length_le (hs : s.tokens = []) (h : s.run t cap strict = .ok s') :
    s'.tokens.length ≤ cap + 2 * t.mostKinds + 1 := by
  have hfirst : Few t cap s := ⟨by simp [hs], fun _ => by simp [hs]⟩
  exact (run_moves (fun hne hm hfew => hfew.moves hne hm) hfirst h).1.all

/-! ### Two caps -/

/-- A scan passes another on its way to the end of the line. -/
inductive Passes (t : RuleTable) (cap : Nat) : Scan → Scan → Prop
  | here (s : Scan) : Passes t cap s s
  | step {s next mid : Scan} {c : Char} {cs : List Char} (hrest : s.rest = c :: cs)
      (hstep : s.step t cap false c cs = .ok next) (h : Passes t cap next mid) : Passes t cap s mid

/-- The cap is never reached: wherever the scan has something left there is room for more tokens. -/
def Roomy (t : RuleTable) (cap : Nat) (s : Scan) : Prop :=
  ∀ mid, Passes t cap s mid → mid.rest ≠ [] → mid.tokens.length < cap

theorem Covers.passes {line : List Char} {mid : Scan} (ht : t.Closed) (h : Scan.Covers t line s)
    (hmid : Passes t cap s mid) : Scan.Covers t line mid := by
  induction hmid with
  | here s => exact h
  | step hrest hstep hmid ih => exact ih (h.moves ht (by simp [hrest]) (step_moves hrest hstep))

theorem Passes.run_eq {mid : Scan} (h : Passes t cap s mid) :
    s.run t cap false = mid.run t cap false := by
  induction h with
  | here s => rfl
  | step hrest hstep hmid ih => rw [run_step hrest hstep, ih]

/-- The cap is not reached by a scan that ends with no more tokens than it allows, for a cut adds
one. -/
theorem roomy_of_length_le (hrun : s.run t cap false = .ok s') (hfew : s'.tokens.length ≤ cap) :
    Roomy t cap s := by
  intro mid hmid hne
  refine Nat.lt_of_not_le fun hfull => ?_
  obtain ⟨c, cs, hrest⟩ := List.exists_cons_of_ne_nil hne
  have hcut : mid.step t cap false c cs = .ok mid.cut := if_pos hfull
  rw [hmid.run_eq, run_step hrest hcut, run_nil rfl] at hrun
  obtain rfl := Except.ok.inj hrun
  rw [cut_tokens, List.length_cons] at hfew
  exact absurd hfull (Nat.not_le.2 hfew)

/-- With room left, a step does not depend on the cap. -/
theorem step_eq_of_room {cap' : Nat} (h : s.tokens.length < cap) (h' : s.tokens.length < cap')
    (c : Char) (cs : List Char) : s.step t cap strict c cs = s.step t cap' strict c cs := by
  rw [step, step, if_neg (Nat.not_le.2 h), if_neg (Nat.not_le.2 h')]

/-- A scan goes the way of one that never reaches its cap, to the end or to where it is cut. -/
theorem run_capped {whole : Nat} {all row : Scan} (hroomy : Roomy t whole s)
    (hall : s.run t whole false = .ok all) (hrow : s.run t cap false = .ok row) :
    row = all ∨ ∃ mid, Passes t whole s mid ∧ mid.rest ≠ [] ∧ cap ≤ mid.tokens.length ∧
      row = mid.cut ∧ mid.run t whole false = .ok all := by
  fun_induction Scan.run t whole false s with
  | case1 s hr =>
    rw [run_nil hr] at hrow
    exact .inl (Except.ok.inj (hrow.symm.trans hall))
  | case2 s c cs hr e he => cases hall
  | case3 s c cs hr next hstep ih =>
    have hne : s.rest ≠ [] := by simp [hr]
    by_cases hfull : cap ≤ s.tokens.length
    · have hcut : s.step t cap false c cs = .ok s.cut := if_pos hfull
      rw [run_step hr hcut, run_nil rfl] at hrow
      rw [← run_step hr hstep] at hall
      exact .inr ⟨s, .here s, hne, hfull, (Except.ok.inj hrow).symm, hall⟩
    · have hsame : s.step t cap false c cs = s.step t whole false c cs :=
        step_eq_of_room (Nat.lt_of_not_le hfull) (hroomy s (.here s) hne) c cs
      rw [run_step hr (hsame.trans hstep)] at hrow
      have hmore : Roomy t whole next := fun mid hmid => hroomy mid (.step hr hstep hmid)
      rcases ih hmore hall hrow with hend | ⟨mid, hmid, hcut⟩
      · exact .inl hend
      · exact .inr ⟨mid, .step hr hstep hmid, hcut⟩

/-- A line that is not longer than the cap does not reach it, for every token holds some of it. -/
theorem Covers.roomy {line : List Char} (ht : t.Closed) (h : Scan.Covers t line s)
    (hline : line.length ≤ cap) : Roomy t cap s := by
  intro mid hmid hne
  obtain ⟨-, text, hc, htext, -⟩ := h.passes ht hmid
  have hfew := hc.tiles.length_le
  rw [List.length_reverse, hc.text_eq] at hfew
  have hlength : text.length + mid.rest.length = line.length := by
    rw [← htext, List.length_append]
  have hleft := List.length_pos_iff.2 hne
  omega

end Scan

/-! ### Lines -/

/-- A row of a line that is cut behind the tokens `shown`: the rest of the line follows as one token of
kind `text`, and the next line starts afresh. The row of the whole line has the same tokens in front,
only that the last of them may go on there. -/
structure Row.CutBehind (row all : Row) (line : List Char) (shown : List Token)
    (rest : List Char) : Prop where
  line_eq : textOf shown ++ rest = line
  rest_ne_nil : rest ≠ []
  row_eq : row = ⟨shown ++ [⟨.text, rest, Text.width (textOf shown)⟩], .start⟩
  dropLast : shown.dropLast = all.tokens.take (shown.length - 1)
  last : ∀ t ∈ shown.getLast?, ∃ u, all.tokens[shown.length - 1]? = some u ∧
    t.kind = u.kind ∧ t.start = u.start ∧ t.value <+: u.value

namespace Tokenizer

/-- **The cap only cuts the tail off.** With a closed table, whatever its expressions match, the cap and
the state a line starts in, the row has not many more tokens than the cap allows: two for each kind of
a group rule and one more. A cap that is not less than the length of the line is never reached. And
with any cap that is never reached the row is the same, or it is cut behind as many tokens as the cap,
or more, of which the row with the other cap has all but the last as they are. -/
theorem tokenize_capped {table : RuleTable} (closed : table.Closed) (state : StateId)
    (line : List Char) (cap : Nat) :
    let row := (⟨table, cap⟩ : Tokenizer).tokenize state line
    row.tokens.length ≤ cap + 2 * table.mostKinds + 1 ∧
      ∀ whole : Nat,
        let t : Tokenizer := ⟨table, whole⟩
        (line.length ≤ whole → Scan.Roomy table whole (t.enter state line)) ∧
          (Scan.Roomy table whole (t.enter state line) →
            row = t.tokenize state line ∨ ∃ shown rest, cap ≤ shown.length ∧
              row.CutBehind (t.tokenize state line) line shown rest) := by
  intro row
  obtain ⟨s, hs⟩ := Scan.run_lenient table cap ((⟨table, cap⟩ : Tokenizer).enter state line)
  have hrow : row = rowOf s := by
    simp only [row, tokenize, tokenizeNoting, scan, hs]
  refine ⟨?_, fun whole => ?_⟩
  · rw [hrow, rowOf, List.length_reverse]
    exact Scan.run_length_le rfl hs
  · intro t
    have hcovers : Scan.Covers table line (t.enter state line) :=
      enter_covers (t := t) closed state line
    refine ⟨hcovers.roomy closed, fun hroomy => ?_⟩
    obtain ⟨all, hall⟩ := Scan.run_lenient table whole (t.enter state line)
    have hwhole : t.tokenize state line = rowOf all := by
      simp only [t, tokenize, tokenizeNoting, scan, hall]
    rw [hrow, hwhole]
    rcases Scan.run_capped hroomy hall hs with rfl | ⟨mid, hmid, hne, hfull, rfl, hmore⟩
    · exact .inl rfl
    · obtain ⟨-, text, hc, htext, hoffset⟩ := hcovers.passes closed hmid
      obtain ⟨n, hgrows⟩ := Scan.run_grows hmore
      obtain ⟨hdrop, hlast⟩ := hgrows.reading
      refine .inr ⟨mid.tokens.reverse, mid.rest, by rwa [List.length_reverse], ?_, hne, ?_, hdrop,
        hlast⟩
      · rw [hc.text_eq, htext]
      · rw [rowOf, Scan.cut_tokens, List.reverse_cons, hc.text_eq, hoffset]
        rfl

/-- The cap is reached in front of a character that would have joined the token before it. -/
theorem tokenize_capped_joining : ∃ table, unheldDraft.build = .ok table ∧
    let line := "ééa".toList
    let row := (⟨table, 1⟩ : Tokenizer).tokenize .start line
    let all := (⟨table, 3⟩ : Tokenizer).tokenize .start line
    row.tokens.length ≤ 1 + 2 * table.mostKinds + 1 ∧ row ≠ all ∧
      ∃ shown rest, 1 ≤ shown.length ∧ row.CutBehind all line shown rest := by
  obtain ⟨table, h⟩ := unheldDraft_built
  have hne : (⟨table, 1⟩ : Tokenizer).tokenize .start "ééa".toList ≠
      (⟨table, 3⟩ : Tokenizer).tokenize .start "ééa".toList := by
    rw [show table = unheldDraft.build.toOption.getD ⟨[]⟩ by rw [h]; rfl]
    decide +kernel
  obtain ⟨hfew, hwhole⟩ := tokenize_capped (TableDraft.build_closed h) .start "ééa".toList 1
  obtain ⟨hroomy, hcut⟩ := hwhole 3
  exact ⟨table, h, hfew, hne, (hcut (hroomy (by decide))).resolve_left hne⟩

end Tokenizer

end CodeEditing.Lexing
