import CodeEditing.Lint.Brackets
import CodeEditing.Proofs.Lexing.Bounds
import CodeEditing.Proofs.Lint.Rules

/-! The verdict on plain text.

A text is plain when no mark comes up in it and no line is cut. A scan of a plain line stays in the
state `start`, and what its bracket tokens show so far is what of the brackets outside of parameter
lists has been read (`Shows`). So brackets of a plain text are found to be in order exactly where those
outside of parameter lists are well nested (`checkBrackets_eq_none_iff`); brackets in a list are not
looked at, and a list ends at the first closing parenthesis. -/
namespace CodeEditing.Lint

open Lexing Lexing.Coffee
open Document (Line Cell)

/-! ### Bracket tokens -/

/-- The characters of the bracket tokens. -/
def shown (tokens : List Token) : List Char :=
  (tokens.filter fun t => isBracket t.kind).flatMap (·.value)

theorem shown_append (a b : List Token) : shown (a ++ b) = shown a ++ shown b := by
  rw [shown, List.filter_append, List.flatMap_append]
  rfl

theorem shown_quiet {t : Token} (h : isBracket t.kind = false) : shown [t] = [] := by
  simp [shown, h]

theorem shown_bracket {t : Token} (h : isBracket t.kind = true) : shown [t] = t.value := by
  simp [shown, h]

theorem chars_cellsOf (row column : Nat) (cs : List Char) :
    (Document.cellsOf row column cs).map Cell.char = cs := by
  induction cs generalizing column with
  | nil => rfl
  | cons c cs ih => exact congrArg (c :: ·) (ih _)

theorem chars_bracketCellsOf (row : Nat) (tokens : List Token) :
    (bracketCellsOf row tokens).map Cell.char = shown tokens := by
  rw [bracketCellsOf, List.map_flatMap]
  simp only [chars_cellsOf]
  rfl

theorem chars_bracketCellsFrom (row : Nat) (rows : List Row) :
    (bracketCellsFrom row rows).map Cell.char = rows.flatMap fun r => shown r.tokens := by
  induction rows generalizing row with
  | nil => rfl
  | cons r rs ih =>
    rw [bracketCellsFrom, List.map_append, chars_bracketCellsOf, ih, List.flatMap_cons]

section
variable {merge : Bool} {kind : Kind} {value matched rest : List Char} {start stop cursor : Nat}
  {out : List Token}

/-- A token that is no bracket joins none. -/
theorem shown_push (h : isBracket kind = false) :
    shown (push merge kind value start out).reverse = shown out.reverse := by
  cases out with
  | nil => exact shown_quiet h
  | cons last more =>
    rw [push]
    split
    · next hsame =>
      have hlast : isBracket last.kind = false := by
        rw [eq_of_beq (Bool.and_eq_true_iff.1 hsame).2]
        exact h
      have hjoined : shown [{last with value := last.value ++ value}] = [] := shown_quiet hlast
      rw [List.reverse_cons, List.reverse_cons, shown_append, shown_append, shown_quiet hlast,
        hjoined]
    · have hnew : shown [⟨kind, value, start⟩] = [] := shown_quiet h
      rw [List.reverse_cons, shown_append, hnew, List.append_nil]

theorem shown_push_bracket (h : isBracket kind = true) :
    shown (push false kind value start out).reverse = shown out.reverse ++ value := by
  have hpush : push false kind value start out = ⟨kind, value, start⟩ :: out := by
    cases out with
    | nil => rfl
    | cons last more => rfl
  have hnew : shown [⟨kind, value, start⟩] = value := shown_bracket h
  rw [hpush, List.reverse_cons, shown_append, hnew]

theorem shown_pushGroups {groups : List (Kind × Option Capture)}
    (h : ∀ p ∈ groups, isBracket p.1 = false) :
    shown (pushGroups merge matched start cursor groups out).reverse = shown out.reverse := by
  have htext : isBracket .text = false := by decide +kernel
  induction groups generalizing cursor out with
  | nil =>
    rw [pushGroups]
    split
    · rfl
    · exact shown_push htext
  | cons p more ih =>
    have hmore := fun q hq => h q (List.mem_cons_of_mem p hq)
    obtain ⟨kind, group⟩ := p
    cases group with
    | none => exact ih hmore
    | some g =>
      rw [pushGroups]
      split
      · exact ih hmore
      · rw [ih hmore, shown_push (h _ List.mem_cons_self)]
        split
        · rfl
        · exact shown_push htext

theorem shown_emit_quiet {r : Rule} (h : Quiet r.token) :
    shown (r.emit rest stop start out).reverse = shown out.reverse := by
  unfold Rule.emit
  cases htoken : r.token with
  | kind k =>
    rw [htoken] at h
    exact shown_push h
  | classify f =>
    rw [htoken] at h
    exact shown_push (h _)
  | groups kinds =>
    rw [htoken] at h
    dsimp only
    cases r.regex.captures rest with
    | none => exact shown_push (by decide +kernel)
    | some m => exact shown_pushGroups fun p hp => h p.1 (List.of_mem_zip hp).1

theorem shown_emit_bracket {r : Rule} (ht : r.token = .kind kind) (h : isBracket kind = true)
    (hm : r.merge = false) :
    shown (r.emit rest stop start out).reverse = shown out.reverse ++ rest.take stop := by
  unfold Rule.emit
  rw [ht, hm]
  exact shown_push_bracket h

end

/-! ### Scans of plain lines -/

/-- No mark comes up, and there are fewer characters than the cap allows tokens. -/
def Plain (cap : Nat) (line : Line) : Prop := line.length < cap ∧ ∀ c ∈ line, c ∉ marks

instance (cap : Nat) (line : Line) : Decidable (Plain cap line) :=
  decidable_of_iff (line.length < cap ∧ line.all (!marks.contains ·) = true) <| by
    simp only [Plain, List.all_eq_true, Bool.not_eq_true', List.contains_eq_mem,
      decide_eq_false_iff_not]

/-- Tokens with text are no more than its characters. -/
theorem length_le_of_tiles {column : Nat} {tokens : List Token} (h : Tiles column tokens) :
    tokens.length ≤ (textOf tokens).length := by
  induction tokens generalizing column with
  | nil => exact Nat.le_refl 0
  | cons t ts ih =>
    obtain ⟨-, hvalue, hmore⟩ := h
    have hpos := List.length_pos_iff.2 hvalue
    have hle := ih hmore
    rw [textOf_cons, List.length_append, List.length_cons]
    omega

/-- A scan of a line in the state `start`: the brackets shown so far are those outside of parameter
lists, but for those still ahead. -/
structure Shows (t : RuleTable) (line : Line) (s : Scan) : Prop where
  covers : Scan.Covers t line s
  state : s.state = .start
  shown : Lint.shown s.tokens.reverse ++ outside s.rest = outside line

section
variable {t : RuleTable} {cap : Nat} {line : Line} {s s' : Scan}

namespace Shows

theorem enter (ht : draft.build = .ok t) (cap : Nat) (line : Line) :
    Shows t line ((⟨t, cap⟩ : Tokenizer).enter .start line) := by
  have hclosed := TableDraft.build_closed ht
  refine ⟨Tokenizer.enter_covers (t := ⟨t, cap⟩) hclosed .start line, ?_, rfl⟩
  unfold Tokenizer.enter
  exact ite_self _

/-- What is left of a plain line is plain, and there is room for its tokens. -/
theorem plain (h : Shows t line s) (hp : Plain cap line) :
    (s.rest ≠ [] → s.tokens.length < cap) ∧ ∀ c ∈ s.rest, c ∉ marks := by
  obtain ⟨text, ⟨htiles, htext⟩, hline, -⟩ := h.covers.covers
  constructor
  · intro _
    have hle := length_le_of_tiles htiles
    have hlen : line.length = text.length + s.rest.length := by
      rw [← hline, List.length_append]
    have := hp.1
    rw [htext, List.length_reverse] at hle
    omega
  · exact fun c hc => hp.2 c (hline ▸ List.mem_append_right text hc)

/-- Every step of a scan of a plain line keeps what it shows. -/
theorem moves (ht : draft.build = .ok t) (hp : Plain cap line) (hne : s.rest ≠ [])
    (hm : Scan.Moves t cap false s s') (h : Shows t line s) : Shows t line s' := by
  have hcovers := h.covers.moves (TableDraft.build_closed ht) hne hm
  obtain ⟨hroom, hmarks⟩ := h.plain hp
  obtain ⟨st, hst, hrules, hkind⟩ := state?_start ht
  rw [← h.state] at hst
  cases hm with
  | cut full => exact absurd (hroom hne) (Nat.not_lt.2 full)
  | lost room missing => exact nomatch missing.symm.trans hst
  | @skip st' c cs room found rest unmatched =>
    obtain rfl := Option.some.inj (hst.symm.trans found)
    refine ⟨hcovers, h.state, ?_⟩
    rw [rest] at unmatched
    have hshown := h.shown
    rw [rest, outside_cons (firstMatch_start_none hrules unmatched)] at hshown
    have hquiet : isBracket st.defaultKind = false := by
      rw [hkind]
      decide +kernel
    rw [← hshown]
    exact congrArg (· ++ outside cs) (shown_push hquiet)
  | @note st' c cs index rule m room found rest matched nothing lenient =>
    obtain rfl := Option.some.inj (hst.symm.trans found)
    have := (firstMatch_start hrules hmarks matched).1
    omega
  | @take st' index rule m room found matched some =>
    obtain rfl := Option.some.inj (hst.symm.trans found)
    obtain ⟨-, hnext, hmerge, hkeeps⟩ := firstMatch_start hrules hmarks matched
    refine ⟨hcovers, ?_, ?_⟩
    · show rule.next.getD s.state = .start
      rw [hnext, Option.getD_none, h.state]
    · rw [← h.shown]
      unfold Scan.take
      dsimp only
      cases hkeeps with
      | quiet token same => rw [shown_emit_quiet token, same]
      | bracket token kind shown =>
        rw [shown_emit_bracket token kind hmerge, shown, List.append_assoc]

end Shows

/-- The tokens of a plain line show the brackets outside of parameter lists, and the next line starts in
the state `start` again. -/
theorem tokenize_plain (ht : draft.build = .ok t) (hp : Plain cap line) :
    shown ((⟨t, cap⟩ : Tokenizer).tokenize .start line).tokens = outside line ∧
      ((⟨t, cap⟩ : Tokenizer).tokenize .start line).endState = .start := by
  obtain ⟨s, hs, hrow, -⟩ :=
    Tokenizer.exists_scan (t := ⟨t, cap⟩) (TableDraft.build_closed ht) .start line
  obtain ⟨h, hrest⟩ := Scan.run_moves (P := Shows t line) (fun hne hm h => h.moves ht hp hne hm)
    (Shows.enter ht cap line) hs
  rw [hrow]
  refine ⟨?_, h.state⟩
  have := h.shown
  rwa [hrest, show outside [] = [] from rfl, List.append_nil] at this

theorem tokenizeFrom_plain (ht : draft.build = .ok t) {lines : List Line}
    (hp : ∀ line ∈ lines, Plain cap line) :
    ((⟨t, cap⟩ : Tokenizer).tokenizeFrom .start lines).flatMap (fun r => shown r.tokens) =
      lines.flatMap outside := by
  induction lines with
  | nil => rfl
  | cons line lines ih =>
    obtain ⟨hshown, hstate⟩ := tokenize_plain ht (hp line List.mem_cons_self)
    rw [Tokenizer.tokenizeFrom, List.flatMap_cons, List.flatMap_cons, hstate, hshown,
      ih fun l hl => hp l (List.mem_cons_of_mem line hl)]

end

/-! ### The verdict -/

theorem chars_bracketCells {lines : List Line} (hp : ∀ line ∈ lines, Plain defaultCap line) :
    (bracketCells lines).map Cell.char = lines.flatMap outside := by
  unfold bracketCells
  rw [chars_bracketCellsFrom]
  exact tokenizeFrom_plain build_eq hp

/-- **The verdict on plain text.** No fault is found exactly where the brackets outside of parameter
lists are well nested. Where parameter lists are well nested in themselves, this is where all brackets
of the text are. -/
theorem checkBrackets_eq_none_iff {lines : List Line}
    (hp : ∀ line ∈ lines, Plain defaultCap line) :
    (checkBrackets lines = none ↔ WellNested (lines.flatMap outside)) ∧
      ((∀ line ∈ lines, ListsNested line) →
        (checkBrackets lines = none ↔ WellNested (lines.flatMap bracketsOf))) := by
  have hiff : checkBrackets lines = none ↔ WellNested (lines.flatMap outside) := by
    rw [checkBrackets, Option.map_eq_none_iff, bracketFault, seekFault_eq_none_iff,
      chars_bracketCells hp]
  exact ⟨hiff, fun hlists => hiff.trans (wellNested_outside_iff hlists)⟩

/-- A function that is handed over: the text is well nested, but the list is taken to begin at the first
parenthesis, so that the last is left over. Without the last, a parenthesis stays open and is not seen.
A list with brackets of its own that are well nested does no harm. -/
theorem checkBrackets_callback :
    (Plain defaultCap "foo((x) -> x)".toList ∧ WellNested (bracketsOf "foo((x) -> x)".toList) ∧
      checkBrackets ["foo((x) -> x)".toList] ≠ none) ∧
    (Plain defaultCap "foo((x) -> x".toList ∧ ¬ WellNested (bracketsOf "foo((x) -> x".toList) ∧
      checkBrackets ["foo((x) -> x".toList] = none) ∧
    (Plain defaultCap "foo = ([x]) -> y[x]".toList ∧ ListsNested "foo = ([x]) -> y[x]".toList ∧
      checkBrackets ["foo = ([x]) -> y[x]".toList] = none) := by
  have hclosed : ∀ line ∈ ["foo((x) -> x)".toList], Plain defaultCap line := by decide
  have hopen : ∀ line ∈ ["foo((x) -> x".toList], Plain defaultCap line := by decide
  have hplain : ∀ line ∈ ["foo = ([x]) -> y[x]".toList], Plain defaultCap line := by decide
  have hlists : ∀ line ∈ ["foo = ([x]) -> y[x]".toList], ListsNested line := by decide
  refine ⟨⟨hclosed _ List.mem_cons_self, by decide, fun h => ?_⟩,
    ⟨hopen _ List.mem_cons_self, by decide, ?_⟩,
    hplain _ List.mem_cons_self, hlists _ List.mem_cons_self, ?_⟩
  · exact absurd ((checkBrackets_eq_none_iff hclosed).1.1 h) (by decide)
  · exact (checkBrackets_eq_none_iff hopen).1.2 (by decide)
  · exact ((checkBrackets_eq_none_iff hplain).2 hlists).2 (by decide)

end CodeEditing.Lint
