import CodeEditing.Mode.Coffee
import CodeEditing.Proofs.Document.RowEdits
import CodeEditing.Proofs.Lexing.CommentLines

/-! Commenting rows out and back in.

Each row is changed on its own (`toggled`), so a stretch of rows is changed row by row
(`toggleComment_doc`). A row whose text does not begin with a hash gets a single one, which makes it a
comment and no mark of a block comment; toggled again it is what it was (`toggled_toggled`). So commenting
out hides the rows and can be taken back (`toggleComment_hides`). -/
namespace CodeEditing.Mode.Coffee

open Document
open Lexing (Tokenizer)
open Lexing.Coffee (table whole)

/-! ### A row -/

/-- A row behind being commented out or back in. -/
def toggled (line : Line) : Line :=
  if delimitsComment line then line
  else if (body line).head? = some '#' then indent line ++ (body line).tail
  else indent line ++ '#' :: body line

section
variable {line : Line} {d : TextDocument} {row count : Nat}

theorem toggled_of_delimits (h : delimitsComment line = true) : toggled line = line := if_pos h

theorem toggled_of_plain (h : delimitsComment line = false) (hbody : (body line).head? ≠ some '#') :
    toggled line = indent line ++ '#' :: body line := by
  rw [toggled, if_neg (Bool.eq_false_iff.1 h), if_neg hbody]

/-- What has been commented out delimits no block comment, and has its hash behind its indentation. -/
theorem commented (hbody : (body line).head? ≠ some '#') :
    delimitsComment (indent line ++ '#' :: body line) = false ∧
      indent (indent line ++ '#' :: body line) = indent line ∧
      body (indent line ++ '#' :: body line) = '#' :: body line := by
  have hindent : ∀ c ∈ indent line, isIndent c = true := fun c => isIndent_of_mem_indent
  have htrim : Text.trimStart (indent line ++ '#' :: body line) = '#' :: body line :=
    trimStart_append (fun c hc => isBlank_of_isIndent (hindent c hc))
      fun c hc => by obtain rfl := Option.some.inj hc; decide
  refine ⟨?_, indent_append hindent fun c hc => by obtain rfl := Option.some.inj hc; decide⟩
  have hthree := Lexing.Coffee.not_more_hashes hbody ['#']
  rw [delimitsComment, htrim]
  exact Bool.and_eq_false_iff.2 (.inl (Bool.eq_false_iff.2 hthree))

/-- A row that is toggled twice is what it was, unless it begins with a hash. -/
theorem toggled_toggled (h : delimitsComment line = true ∨ (body line).head? ≠ some '#') :
    toggled (toggled line) = line := by
  cases hdelimits : delimitsComment line with
  | true => rw [toggled_of_delimits hdelimits, toggled_of_delimits hdelimits]
  | false =>
    have hbody := h.resolve_left (Bool.eq_false_iff.1 hdelimits)
    obtain ⟨hnot, hindent, hrest⟩ := commented hbody
    rw [toggled_of_plain hdelimits hbody, toggled, if_neg (Bool.eq_false_iff.1 hnot), hindent, hrest,
      if_pos List.head?_cons]
    exact indent_append_body line

/-! ### Rows of a document -/

theorem toggleRow_doc (h : row < d.lines.length) :
    (toggleRow d row).doc = {d with lines := d.lines.set row (toggled (d.line row))} := by
  have hrow : d.lines[row]? = some (d.line row) := getElem?_of_lt h
  have hsplit := hrow
  rw [← indent_append_body (d.line row)] at hsplit
  rw [toggleRow, toggled]
  split
  · rw [set_self hrow]
    rfl
  · split
    · next hhash =>
      obtain ⟨rest, hrest⟩ := List.head?_eq_some_iff.1 hhash
      rw [hrest] at hsplit ⊢
      change d.lines[row]? = some (indent (d.line row) ++ (['#'] ++ rest)) at hsplit
      have hremove := (TextDocument.remove_in_row hsplit).1
      rw [Text.width_append] at hremove
      exact hremove
    · have hfeed : '\n' ∉ ['#'] := by decide
      have hinsert := TextDocument.insert_in_row hsplit hfeed
      rw [List.append_assoc] at hinsert
      exact hinsert

end

/-- Some rows, those from `first` on and before `stop` toggled. -/
def toggledFrom (first stop : Nat) (lines : List Line) : List Line :=
  lines.mapIdx fun i line => if first ≤ i ∧ i < stop then toggled line else line

section
variable {lines : List Line} {d : TextDocument} {first stop i : Nat}

theorem length_toggledFrom : (toggledFrom first stop lines).length = lines.length := List.length_mapIdx

theorem getElem?_toggledFrom : (toggledFrom first stop lines)[i]? =
    lines[i]?.map fun line => if first ≤ i ∧ i < stop then toggled line else line :=
  List.getElem?_mapIdx

theorem lineAt_outside (h : ¬(first ≤ i ∧ i < stop)) :
    lineAt (toggledFrom first stop lines) i = lineAt lines i := by
  rw [lineAt_eq, lineAt_eq, getElem?_toggledFrom]
  simp only [if_neg h, Option.map_id']

theorem lineAt_toggledFrom (h : i < lines.length) : lineAt (toggledFrom first stop lines) i =
    if first ≤ i ∧ i < stop then toggled (lineAt lines i) else lineAt lines i :=
  lineAt_of_getElem? (by rw [getElem?_toggledFrom, getElem?_of_lt h, Option.map_some])

/-- It makes no difference how far rows are toggled that there are not. -/
theorem toggledFrom_congr {first' stop' : Nat}
    (h : ∀ i < lines.length, first ≤ i ∧ i < stop ↔ first' ≤ i ∧ i < stop') :
    toggledFrom first stop lines = toggledFrom first' stop' lines := by
  refine List.ext_getElem? fun i => ?_
  rw [getElem?_toggledFrom, getElem?_toggledFrom]
  by_cases hi : i < lines.length
  · simp only [h i hi]
  · rw [List.getElem?_eq_none (Nat.le_of_not_lt hi)]
    rfl

/-- Rows are toggled one by one, and each on its own. -/
theorem toggleRows_doc {count : Nat} (h : 0 < count → first + count ≤ d.lines.length) :
    (toggleRows d first count).doc =
      {d with lines := toggledFrom first (first + count) d.lines} := by
  induction count generalizing d first with
  | zero =>
    have hsame : toggledFrom first (first + 0) d.lines = d.lines := by
      refine List.ext_getElem? fun i => ?_
      have hnot : ¬(first ≤ i ∧ i < first + 0) := by omega
      rw [getElem?_toggledFrom]
      simp only [if_neg hnot, Option.map_id']
    rw [hsame]
    rfl
  | succ count ih =>
    -- the first row is not among those that are toggled behind it
    have hlast := h (Nat.succ_pos count)
    have hfirst : first < d.lines.length := by omega
    have hdoc := toggleRow_doc hfirst
    have hmore : toggledFrom (first + 1) (first + 1 + count)
          (d.lines.set first (toggled (d.line first))) =
        toggledFrom first (first + (count + 1)) d.lines := by
      refine List.ext_getElem? fun i => ?_
      rw [getElem?_toggledFrom, getElem?_toggledFrom]
      by_cases hi : i = first
      · subst hi
        rw [List.getElem?_set_self hfirst, getElem?_of_lt hfirst, Option.map_some, Option.map_some,
          if_neg (by omega), if_pos (by omega)]
        rfl
      · have hrows : first + 1 ≤ i ∧ i < first + 1 + count ↔ first ≤ i ∧ i < first + (count + 1) := by
          omega
        rw [List.getElem?_set_ne (Ne.symm hi)]
        simp only [hrows]
    have hlength : (toggleRow d first).doc.lines.length = d.lines.length := by
      rw [hdoc]
      exact List.length_set
    rw [toggleRows, ih (d := (toggleRow d first).doc) fun _ => by omega, hdoc, ← hmore]

theorem toggleComment_doc (d : TextDocument) (first last : Nat) : (toggleComment d first last).doc =
    {d with lines := toggledFrom first (last + 1) d.lines} := by
  have hrows : toggledFrom first (first + (min (last + 1) d.lines.length - first)) d.lines =
      toggledFrom first (last + 1) d.lines := toggledFrom_congr fun i hi => by omega
  rw [toggleComment, toggleRows_doc (by omega), hrows]

/-- Rows that are toggled twice are what they were. -/
theorem toggledFrom_toggledFrom (h : ∀ i, first ≤ i → i < stop → i < lines.length →
      delimitsComment (lineAt lines i) = true ∨ (body (lineAt lines i)).head? ≠ some '#') :
    toggledFrom first stop (toggledFrom first stop lines) = lines := by
  refine List.ext_getElem? fun i => ?_
  rw [getElem?_toggledFrom, getElem?_toggledFrom]
  by_cases hi : i < lines.length
  · rw [getElem?_of_lt hi, Option.map_some, Option.map_some]
    by_cases hrow : first ≤ i ∧ i < stop
    · rw [if_pos hrow, if_pos hrow, toggled_toggled (h i hrow.1 hrow.2 hi)]
    · rw [if_neg hrow, if_neg hrow]
  · rw [List.getElem?_eq_none (Nat.le_of_not_lt hi)]
    rfl

end

/-! ### Commenting out -/

/-- **Commenting out hides rows and can be taken back.** Let the text of each row that is commented out
begin with no hash, unless the row delimits a block comment. The number of rows stays, and so do the rows
outside, and those that delimit block comments. All other rows become, outside of strings and comments,
their indentation and a comment that reaches up to the end of the row, and the next row starts outside
again. Doing the same once more gives the document back. -/
theorem toggleComment_hides (start : List Char) (ops : List Operation) (first last : Nat) {cap : Nat}
    (hcap : 2 ≤ cap) :
    let d := (TextDocument.ofText start).use ops
    let after := (toggleComment d first last).doc
    (∀ row, first ≤ row → row ≤ last → row < d.lines.length →
      delimitsComment (d.line row) = true ∨ (body (d.line row)).head? ≠ some '#') →
    after.lines.length = d.lines.length ∧
      (∀ row, ¬(first ≤ row ∧ row ≤ last) → after.line row = d.line row) ∧
      (∀ row, first ≤ row → row ≤ last → row < d.lines.length →
        if delimitsComment (d.line row) then after.line row = d.line row
        else
          let front := indent (d.line row)
          let hidden := '#' :: body (d.line row)
          after.line row = front ++ hidden ∧
            (⟨table, cap⟩ : Tokenizer).tokenize .start (after.line row) =
              ⟨whole .text front ++ [⟨.comment, hidden, Text.width front⟩], .start⟩) ∧
      (toggleComment after first last).doc = d := by
  intro d after h
  have hd : d.WellFormed := TextDocument.wellFormed_use (TextDocument.wellFormed_ofText start) ops
  have hafter : after = {d with lines := toggledFrom first (last + 1) d.lines} :=
    toggleComment_doc d first last
  refine ⟨?_, fun row hrow => ?_, fun row hfirst hlast hrow => ?_, ?_⟩
  · rw [hafter]
    exact length_toggledFrom
  · rw [hafter]
    exact lineAt_outside fun hin => hrow ⟨hin.1, Nat.le_of_lt_succ hin.2⟩
  · have hline : after.line row = toggled (d.line row) := by
      rw [hafter]
      exact (lineAt_toggledFrom hrow).trans (if_pos ⟨hfirst, Nat.lt_succ_of_le hlast⟩)
    rw [hline]
    split
    · next hdelimits => exact toggled_of_delimits hdelimits
    · next hdelimits =>
      have hbody := (h row hfirst hlast hrow).resolve_left hdelimits
      have hfeed : '\n' ∉ body (d.line row) := fun hmem => hd.no_feed <|
        TextDocument.mem_flatten_of_mem_line ((List.dropWhile_sublist _).subset hmem)
      have hplain := toggled_of_plain (Bool.eq_false_iff.2 hdelimits) hbody
      rw [hplain]
      refine ⟨rfl, Lexing.Coffee.tokenize_comment Lexing.Coffee.build_eq hcap (fun c hc => ?_) hbody hfeed⟩
      simpa [isIndent] using isIndent_of_mem_indent hc
  · rw [toggleComment_doc, hafter, toggledFrom_toggledFrom fun i hi hlt hrow =>
      h i hi (Nat.le_of_lt_succ hlt) hrow]

/-- A mark of a block comment, a no-break space and an empty row among the rows, and a comment below. -/
theorem toggleComment_hides_mixed :
    let d := TextDocument.ofText "  x = '#'\n ###\n\t\u00a0y\n\n#z".toList
    let after := (toggleComment d 0 3).doc
    after.lines.length = 5 ∧ after.line 1 = " ###".toList ∧ after.line 4 = "#z".toList ∧
      (after.line 0 = "  #x = '#'".toList ∧
        (⟨table, 2⟩ : Tokenizer).tokenize .start (after.line 0) =
          ⟨[⟨.text, "  ".toList, 0⟩, ⟨.comment, "#x = '#'".toList, 2⟩], .start⟩) ∧
      (toggleComment after 0 3).doc = d := by
  intro d after
  have hall : ∀ row < 4, delimitsComment (d.line row) = true ∨
      (body (d.line row)).head? ≠ some '#' := by decide
  obtain ⟨hlength, houtside, hrows, hback⟩ :=
    toggleComment_hides "  x = '#'\n ###\n\t\u00a0y\n\n#z".toList [] 0 3 (Nat.le_refl 2)
      fun row _ hlast _ => hall row (Nat.lt_succ_of_le hlast)
  have hused : (TextDocument.ofText "  x = '#'\n ###\n\t\u00a0y\n\n#z".toList).use [] = d := rfl
  rw [hused] at hlength houtside hrows hback
  have hmark := hrows 1 (by decide) (by decide) (by decide)
  rw [if_pos (by decide)] at hmark
  have hhidden := hrows 0 (by decide) (by decide) (by decide)
  rw [if_neg (by decide)] at hhidden
  obtain ⟨hline, hrow⟩ := hhidden
  have hfront : indent (d.line 0) = "  ".toList := by decide
  have hbody : body (d.line 0) = "x = '#'".toList := by decide
  have hhash : '#' :: "x = '#'".toList = "#x = '#'".toList := by decide
  have hwhole : whole .text "  ".toList = [⟨.text, "  ".toList, 0⟩] := by decide
  have hwidth : Text.width "  ".toList = 2 := by decide
  rw [hfront, hbody, hhash] at hline hrow
  rw [hwhole, hwidth] at hrow
  exact ⟨hlength.trans (by decide), hmark.trans (by decide),
    (houtside 4 (by decide)).trans (by decide), ⟨hline.trans (by decide), hrow⟩, hback⟩

end CodeEditing.Mode.Coffee
