import CodeEditing.Folding.Marked
import CodeEditing.Proofs.Folding.Runs
import Mathlib.Data.Nat.Find
import Mathlib.Order.Bounds.Basic

/-! Blocks of deeper rows.

The search for the end of a block keeps the last row it has found: down to there all rows with text are
deeper, and behind it there have been none with text. So it ends with the greatest row like that
(`lastWhile_isGreatest`), and there is a block just when the next row with text is deeper
(`exists_next_iff`). A row of a block is deeper than the row the block begins at, so whatever is deeper
than the one is deeper than the other, and a block that begins in another one ends in it
(`Encloses.trans`). -/
namespace CodeEditing.Folding

open Document (Line Position Range lineAt indentLevel?)

/-- Whether a row is not blank. -/
def HasText (lines : List Line) (row : Nat) : Prop := Text.allBlank (lineAt lines row) = false

/-- The columns of the blanks and tabs a row begins with. -/
def depth (lines : List Line) (row : Nat) : Nat := Text.width (Document.indent (lineAt lines row))

/-- The end of a row. -/
def endOfRow (lines : List Line) (row : Nat) : Position := ⟨row, Text.width (lineAt lines row)⟩

/-! ### Runs of rows with a property -/

/-- A row with text, down to which all rows with text below `top` have a property. -/
def RunsTo (keeps : Line → Bool) (lines : List Line) (top last : Nat) : Prop :=
  HasText lines last ∧
    ∀ k, top < k → k ≤ last → HasText lines k → keeps (lineAt lines k) = true

section
variable {keeps : Line → Bool} {lines : List Line} {top last row : Nat} {line : Line}

theorem not_hasText_of_blank (hrow : lineAt lines row = line) (hblank : Text.allBlank line = true) :
    ¬HasText lines row := by
  rw [HasText, hrow, hblank]
  exact nofun

theorem not_hasText_of_length_le (h : lines.length ≤ row) : ¬HasText lines row := by
  have hnil : lineAt lines row = [] := by
    rw [Document.lineAt_eq, List.getElem?_eq_none h, Option.getD_none]
  exact not_hasText_of_blank hnil rfl

theorem lineAt_of_drop {rows : List Line} (h : lines.drop row = line :: rows) :
    lineAt lines row = line ∧ lines.drop (row + 1) = rows := by
  have hget : lines[row]? = some line := by rw [← List.head?_drop, h, List.head?_cons]
  exact ⟨Document.lineAt_of_getElem? hget, by rw [← List.tail_drop, h, List.tail_cons]⟩

/-- The search ends with the last row of a run, if it has found one before and none with text since. -/
theorem lastWhile_isGreatest (htop : top ≤ last) (hlast : RunsTo keeps lines top last)
    (hlt : last < row) (hblank : ∀ k, last < k → k < row → ¬HasText lines k) :
    IsGreatest {n | RunsTo keeps lines top n} (lastWhile keeps last row (lines.drop row)) := by
  generalize hrows : lines.drop row = rows
  induction rows generalizing last row with
  | nil =>
    refine ⟨hlast, fun n hn => Nat.le_of_not_lt fun hbehind => ?_⟩
    have hlen : lines.length ≤ row := List.drop_eq_nil_iff.1 hrows
    by_cases hnrow : n < row
    · exact hblank n hbehind hnrow hn.1
    · exact not_hasText_of_length_le (by omega) hn.1
  | cons line rows ih =>
    obtain ⟨hline, hmore⟩ := lineAt_of_drop hrows
    rw [lastWhile]
    by_cases htext : Text.allBlank line = true
    · have hnone := not_hasText_of_blank hline htext
      rw [if_pos htext]
      refine ih htop hlast (Nat.lt_succ_of_lt hlt) (fun k hk hkrow => ?_) hmore
      rcases Nat.lt_succ_iff_lt_or_eq.1 hkrow with hkrow | rfl
      · exact hblank k hk hkrow
      · exact hnone
    · have hhas : HasText lines row := by rw [HasText, hline, Bool.eq_false_iff.2 htext]
      rw [if_neg htext]
      by_cases hkeeps : keeps line = true
      · rw [if_pos hkeeps]
        refine ih (by omega) ⟨hhas, fun k hktop hk hkt => ?_⟩ (Nat.lt_succ_self row) (by omega) hmore
        by_cases hkl : k ≤ last
        · exact hlast.2 k hktop hkl hkt
        · obtain rfl : k = row := Nat.le_antisymm hk
            (Nat.le_of_not_lt fun hkrow => hblank k (by omega) hkrow hkt)
          rwa [hline]
      · -- a run that goes on behind this row has it in it
        rw [if_neg hkeeps]
        refine ⟨hlast, fun n hn => Nat.le_of_not_lt fun hbehind => hkeeps ?_⟩
        have hle : row ≤ n := Nat.le_of_not_lt fun hnrow => hblank n hbehind hnrow hn.1
        rw [← hline]
        exact hn.2 row (by omega) hle hhas

end

/-! ### Blocks -/

/-- A row with text, down to which all rows with text below another one are deeper than it. -/
def Encloses (lines : List Line) (row last : Nat) : Prop :=
  HasText lines last ∧
    ∀ k, row < k → k ≤ last → HasText lines k → depth lines row < depth lines k

section
variable {lines : List Line} {row last inner : Nat} {r : Range}

theorem isDeeper_iff (h : HasText lines row) (level : Nat) :
    isDeeper level (lineAt lines row) = true ↔ level < depth lines row := by
  rw [isDeeper, indentLevel?_of_text h, Option.any_some, decide_eq_true_iff]
  rfl

theorem runsTo_deeper_iff :
    RunsTo (isDeeper (depth lines row)) lines row last ↔ Encloses lines row last :=
  and_congr_right fun _ => forall_congr' fun _ => forall_congr' fun _ => forall_congr' fun _ =>
    forall_congr' fun htext => isDeeper_iff htext _

/-- The last row of the block below a row. -/
def blockEnd (lines : List Line) (row : Nat) : Nat :=
  lastWhile (isDeeper (depth lines row)) row (row + 1) (lines.drop (row + 1))

theorem blockEnd_isGreatest (h : HasText lines row) :
    IsGreatest {last | Encloses lines row last} (blockEnd lines row) := by
  have hself : RunsTo (isDeeper (depth lines row)) lines row row :=
    ⟨h, fun k hk hkrow => absurd hk (Nat.not_lt.2 hkrow)⟩
  have hgreatest := lastWhile_isGreatest (Nat.le_refl row) hself (Nat.lt_succ_self row)
    (fun k hk hkrow => absurd hk (by omega))
  simp only [runsTo_deeper_iff] at hgreatest
  exact hgreatest

/-- A block begins where it is told to and goes to the end of its last row. -/
theorem deeperBlock_of_text (h : HasText lines row) (column : Nat) : deeperBlock lines row column =
    if row < blockEnd lines row then some ⟨⟨row, column⟩, endOfRow lines (blockEnd lines row)⟩
    else none := by
  rw [deeperBlock_eq, indentLevel?_of_text h, Option.bind_some]
  rfl

theorem deeperBlock_of_blank (h : ¬HasText lines row) (column : Nat) :
    deeperBlock lines row column = none := by
  rw [deeperBlock, indentLevel?_of_blank (Bool.not_eq_false _ |>.mp h), Option.bind_none]

/-- Where a block begins in its row makes no difference to its end. -/
theorem deeperBlock_map_stop (lines : List Line) (row column other : Nat) :
    (deeperBlock lines row column).map Range.stop = (deeperBlock lines row other).map Range.stop := by
  by_cases h : HasText lines row
  · rw [deeperBlock_of_text h, deeperBlock_of_text h]
    split <;> rfl
  · rw [deeperBlock_of_blank h, deeperBlock_of_blank h]

theorem indentationBlock_eq_some_iff (h : HasText lines row) :
    indentationBlock lines row = some r ↔ row < blockEnd lines row ∧
      r = ⟨endOfRow lines row, endOfRow lines (blockEnd lines row)⟩ := by
  rw [indentationBlock, deeperBlock_of_text h, Option.ite_none_right_eq_some, Option.some.injEq,
    eq_comm (a := r)]
  rfl

/-- A block goes on below its row when the next row with text is deeper. -/
theorem lt_blockEnd_iff (h : HasText lines row) : row < blockEnd lines row ↔
    ∃ next, row < next ∧ HasText lines next ∧ (∀ k, row < k → k < next → ¬HasText lines k) ∧
      depth lines row < depth lines next := by
  classical
  obtain ⟨⟨hend, hdeeper⟩, hgreatest⟩ := blockEnd_isGreatest h
  constructor
  · intro hlt
    have hex : ∃ k, row < k ∧ HasText lines k := ⟨_, hlt, hend⟩
    obtain ⟨hbelow, htext⟩ := Nat.find_spec hex
    have hle := Nat.find_min' hex ⟨hlt, hend⟩
    exact ⟨Nat.find hex, hbelow, htext, fun k hk hkn hkt => Nat.find_min hex hkn ⟨hk, hkt⟩,
      hdeeper _ hbelow hle htext⟩
  · rintro ⟨next, hnext, htext, hblank, hdepth⟩
    refine Nat.lt_of_lt_of_le hnext (hgreatest ⟨htext, fun k hk hkn hkt => ?_⟩)
    obtain rfl : k = next :=
      Nat.le_antisymm hkn (Nat.le_of_not_lt fun hlt => hblank k hk hlt hkt)
    exact hdepth

/-- What a row of a block encloses, the block does. -/
theorem Encloses.trans (h : Encloses lines row last) (hrow : row < inner) (hlast : inner ≤ last)
    (htext : HasText lines inner) {n : Nat} (hinner : Encloses lines inner n) :
    Encloses lines row n := by
  refine ⟨hinner.1, fun k hk hkn hkt => ?_⟩
  have hdepth := h.2 inner hrow hlast htext
  by_cases hki : k ≤ inner
  · exact h.2 k hk (Nat.le_trans hki hlast) hkt
  · exact Nat.lt_trans hdepth (hinner.2 k (by omega) hkn hkt)

/-- A block that begins in another one ends in it. -/
theorem blockEnd_le (h : HasText lines row) (hrow : row < inner)
    (hinner : inner ≤ blockEnd lines row) (htext : HasText lines inner) :
    blockEnd lines inner ≤ blockEnd lines row := by
  obtain ⟨hencloses, hgreatest⟩ := blockEnd_isGreatest h
  exact hgreatest (hencloses.trans hrow hinner htext (blockEnd_isGreatest htext).1)

theorem hasText_of_indentationBlock (h : indentationBlock lines row = some r) :
    HasText lines row := by
  by_contra hblank
  rw [indentationBlock, deeperBlock_of_blank hblank] at h
  exact Option.some_ne_none r h.symm

end

/-- **Blocks are exact, and nest.** A blank row has no block. A row with text has one just when the
next row with text is deeper. The block goes from the end of its row to the end of the greatest row with
text down to which all rows with text are deeper, a block that begins in one of its rows ends in it, and
a fold at a mark that is no bracket ends where the block of its row does. -/
theorem indentationBlock_exact (lines : List Line) (row : Nat) :
    (¬HasText lines row → indentationBlock lines row = none) ∧
    (HasText lines row → ((indentationBlock lines row).isSome = true ↔
      ∃ next, row < next ∧ HasText lines next ∧ (∀ k, row < k → k < next → ¬HasText lines k) ∧
        depth lines row < depth lines next)) ∧
    (∀ r, indentationBlock lines row = some r → ∃ last, row < last ∧
      IsGreatest {n | Encloses lines row n} last ∧
      r = ⟨endOfRow lines row, endOfRow lines last⟩ ∧
      ∀ inner s, row < inner → inner ≤ last → indentationBlock lines inner = some s →
        s.stop.row ≤ last ∧ s.stop ≤ r.stop) ∧
    ∀ mark style found g, Matcher.search mark (lineAt lines row) = some found →
      found.group? 1 = none → found.group? 2 = some g →
      ((markedMode mark).rangeAt lines row style).map Range.stop =
        (indentationBlock lines row).map Range.stop := by
  refine ⟨fun h => deeperBlock_of_blank h _, fun h => ?_, fun r hr => ?_, ?_⟩
  · rw [← lt_blockEnd_iff h, Option.isSome_iff_exists]
    simp only [indentationBlock_eq_some_iff h]
    exact ⟨fun ⟨r, hlt, _⟩ => hlt, fun hlt => ⟨_, hlt, rfl⟩⟩
  · have h := hasText_of_indentationBlock hr
    obtain ⟨hlt, rfl⟩ := (indentationBlock_eq_some_iff h).1 hr
    refine ⟨blockEnd lines row, hlt, blockEnd_isGreatest h, rfl, fun inner s hrow hinner hs => ?_⟩
    have htext := hasText_of_indentationBlock hs
    obtain ⟨-, rfl⟩ := (indentationBlock_eq_some_iff htext).1 hs
    have hle := blockEnd_le h hrow hinner htext
    refine ⟨hle, ?_⟩
    rcases Nat.lt_or_eq_of_le hle with hbefore | heq
    · exact .inl hbefore
    · exact .inr ⟨heq, by rw [heq]⟩
  · intro mark style found g hfound hbracket hmark
    show (markedRange mark lines row).map Range.stop = _
    rw [markedRange, hfound, Option.bind_some, hbracket, hmark]
    exact deeperBlock_map_stop lines row _ _

/-- A class with a method in it, and a blank row in that: the block of the method ends in that of the
class, the folds at their marks end with the blocks, and the blank row has none. -/
theorem indentationBlock_exact_method :
    let lines := ["class A".toList, "  b: -> # c".toList, [], "\t  d".toList, "  e".toList, "f".toList]
    HasText lines 0 ∧ indentationBlock lines 0 = some ⟨⟨0, 7⟩, ⟨4, 3⟩⟩ ∧
      (∃ next, 0 < next ∧ HasText lines next ∧ (∀ k, 0 < k → k < next → ¬HasText lines k) ∧
        depth lines 0 < depth lines next) ∧
      indentationBlock lines 1 = some ⟨⟨1, 11⟩, ⟨3, 4⟩⟩ ∧ (⟨3, 4⟩ : Position) ≤ ⟨4, 3⟩ ∧
      (coffeeMode.rangeAt lines 1 .markBegin).map Range.stop =
        (indentationBlock lines 1).map Range.stop ∧
      ¬HasText lines 2 ∧ indentationBlock lines 2 = none := by
  intro lines
  have houter : indentationBlock lines 0 = some ⟨⟨0, 7⟩, ⟨4, 3⟩⟩ := by decide
  have hinner : indentationBlock lines 1 = some ⟨⟨1, 11⟩, ⟨3, 4⟩⟩ := by decide
  have hfound : coffeeMark.search (lineAt lines 1) = some ⟨5, 11, [⟨2, 5, 7⟩]⟩ := by decide +kernel
  have hblank : ¬HasText lines 2 := Bool.noConfusion
  obtain ⟨-, hnext, hblock, -⟩ := indentationBlock_exact lines 0
  obtain ⟨last, -, -, hr, hnests⟩ := hblock _ houter
  obtain rfl : 4 = last := congrArg (fun r : Range => r.stop.row) hr
  exact ⟨rfl, houter, (hnext rfl).1 (by rw [houter]; rfl), hinner,
    (hnests 1 _ (by decide) (by decide) hinner).2,
    (indentationBlock_exact lines 1).2.2.2 coffeeMark .markBegin _ ⟨2, 5, 7⟩ hfound rfl rfl,
    hblank, (indentationBlock_exact lines 2).1 hblank⟩

end CodeEditing.Folding
