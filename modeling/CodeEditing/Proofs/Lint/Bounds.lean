import CodeEditing.Lint.Brackets
import CodeEditing.Proofs.Document.Cells
import CodeEditing.Proofs.Lexing.Bounds
import CodeEditing.Proofs.Lexing.CoffeeTable

/-! Looking for the first fault stays within bounds.

The tokens of a row hold its text, so a bracket is the character of its row at its column
(`mem_bracketCells`). When nothing closes a bracket, its row is cut there to say which one it is, and
that goes well (`checkBrackets?_eq`). -/
namespace CodeEditing.Lint

open Document (Cell Line Remark closerOf?)

/-! ### Where brackets stand -/

/-- A cell is a character of its row. -/
def StandsIn (lines : List Line) (cell : Cell) : Prop :=
  ∃ a b, lines[cell.at_.row]? = some (a ++ cell.char :: b) ∧ cell.at_.column = Text.width a

theorem mem_bracketCellsOf {row : Nat} {line : Line} {tokens : List Lexing.Token} {cell : Cell}
    (ht : Lexing.Tiles 0 tokens) (hline : Lexing.textOf tokens = line)
    (h : cell ∈ bracketCellsOf row tokens) :
    ∃ a b, line = a ++ cell.char :: b ∧ cell.at_ = ⟨row, Text.width a⟩ := by
  obtain ⟨t, hmem, hcell⟩ := List.mem_flatMap.1 h
  obtain ⟨before, after, htext, hstart⟩ := ht.split (List.mem_of_mem_filter hmem)
  obtain ⟨a, b, hvalue, hat⟩ := Document.mem_cellsOf hcell
  refine ⟨before ++ a, b ++ after, ?_, ?_⟩
  · rw [← hline, htext, hvalue]
    simp
  · rw [hat, hstart, Text.width_append, Nat.zero_add]

theorem mem_bracketCellsFrom {t : Lexing.Tokenizer} (ht : t.table.Closed) {row : Nat}
    {state : Lexing.StateId} {lines : List Line} {cell : Cell}
    (h : cell ∈ bracketCellsFrom row (t.tokenizeFrom state lines)) :
    ∃ i a b, lines[i]? = some (a ++ cell.char :: b) ∧ cell.at_ = ⟨row + i, Text.width a⟩ := by
  induction lines generalizing row state with
  | nil => exact absurd h List.not_mem_nil
  | cons line lines ih =>
    rcases List.mem_append.1 h with h | h
    · obtain ⟨s, -, hrow, hcovers⟩ := Lexing.Tokenizer.exists_scan ht state line
      rw [hrow] at h
      obtain ⟨a, b, rfl, hat⟩ := mem_bracketCellsOf hcovers.tiles hcovers.text_eq h
      exact ⟨0, a, b, rfl, hat⟩
    · obtain ⟨i, a, b, hi, hat⟩ := ih h
      exact ⟨i + 1, a, b, hi, by rw [hat, Nat.add_assoc, Nat.add_comm 1]⟩

theorem coffee_closed : Lexing.Coffee.tokenizer.table.Closed := by
  dsimp only [Lexing.Coffee.tokenizer]
  exact Lexing.TableDraft.build_closed Lexing.Coffee.build_eq

theorem mem_bracketCells {lines : List Line} {cell : Cell} (h : cell ∈ bracketCells lines) :
    StandsIn lines cell := by
  obtain ⟨i, a, b, hi, hat⟩ := mem_bracketCellsFrom coffee_closed h
  rw [Nat.zero_add] at hat
  exact ⟨a, b, by rw [hat]; exact hi, by rw [hat]⟩

/-- A bracket that is found to be open is one that was waiting or one of those read. -/
theorem mem_of_seekFault_unclosed {opened : List (Cell × Char)} {cells : List Cell} {cell : Cell}
    {closer : Char} (h : seekFault opened cells = some (.unclosed cell closer)) :
    cell ∈ opened.map Prod.fst ∨ cell ∈ cells := by
  induction cells generalizing opened with
  | nil =>
    obtain ⟨⟨c, k⟩, hlast, heq⟩ := Option.map_eq_some_iff.1 h
    cases heq
    exact .inl (List.mem_map.2 ⟨_, List.mem_of_getLast? hlast, rfl⟩)
  | cons c cells ih =>
    rw [seekFault.eq_def] at h
    cases hc : closerOf? c.char with
    | some closer =>
      simp only [hc] at h
      rcases ih h with hmem | hmem
      · rcases List.mem_cons.1 hmem with rfl | hmem
        · exact .inr List.mem_cons_self
        · exact .inl hmem
      · exact .inr (List.mem_cons_of_mem _ hmem)
    | none =>
      cases opened with
      | nil => simp [hc] at h
      | cons p ps =>
        simp only [hc] at h
        split at h
        · exact (ih h).imp (List.mem_cons_of_mem _) (List.mem_cons_of_mem _)
        · simp at h

/-! ### The first fault -/

/-- The remark on the first fault. The bracket that is not closed is read in its row. -/
def checkBrackets? (lines : List Line) : Option (Option Remark) := do
  let rows ← Lexing.Coffee.tokenizer.tokenizeLines? lines
  match seekFault [] (bracketCellsFrom 0 rows) with
  | some (.unclosed cell closer) =>
    let (_, rest) ← Text.cut? cell.at_.column (Document.lineAt lines cell.at_.row)
    let opener := rest.head?.getD '?'
    some (some (BracketFault.remark (.unclosed ⟨cell.at_, opener⟩ closer)))
  | fault => some (fault.map BracketFault.remark)

theorem checkBrackets?_eq (lines : List Line) : checkBrackets? lines = some (checkBrackets lines) := by
  rw [checkBrackets?, Lexing.Tokenizer.tokenizeLines?_eq coffee_closed, Option.bind_eq_bind,
    Option.bind_some]
  show (match bracketFault lines with
    | some (.unclosed cell closer) => _
    | fault => some (fault.map BracketFault.remark)) = _
  rw [checkBrackets]
  split
  · next cell closer hfault =>
    have hmem := (mem_of_seekFault_unclosed hfault).resolve_left List.not_mem_nil
    obtain ⟨a, b, hrow, hcolumn⟩ := mem_bracketCells hmem
    rw [Document.lineAt_of_getElem? hrow, hcolumn, Text.cut?_append, hfault]
    rfl
  · rfl

end CodeEditing.Lint
