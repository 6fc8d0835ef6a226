import CodeEditing.Proofs.Document.Cells
import CodeEditing.Proofs.Document.Undo
import Mathlib.Data.List.TakeWhile

/-! Edits within a row.

An edit whose ends lie in one row, and that puts in no line feed, gives that row another text and leaves
the rows around it alone: `insert_in_row`, `remove_in_row`, `replace_in_row`. White space that is put in
front of a row's text is the white space the row begins with (`trimStart_append`, `indent_append`). -/
namespace CodeEditing.Document

/-! ### White space in front -/

section
variable {line front back : Line} {c : Char}

theorem isBlank_of_isIndent (h : isIndent c = true) : Text.isBlank c = true := by
  rcases Bool.or_eq_true_iff.1 h with h | h
  all_goals
    rw [eq_of_beq h]
    decide

theorem isIndent_of_mem_indent (h : c ∈ indent line) : isIndent c = true := List.mem_takeWhile_imp h

theorem trimStart_append (hfront : ∀ c ∈ front, Text.isBlank c = true)
    (hback : ∀ c ∈ back.head?, Text.isBlank c = false) : Text.trimStart (front ++ back) = back :=
  (Text.cut_append hfront hback).2

theorem indent_append (hfront : ∀ c ∈ front, isIndent c = true)
    (hback : ∀ c ∈ back.head?, isIndent c = false) :
    indent (front ++ back) = front ∧ body (front ++ back) = back := Text.cut_append hfront hback

end

/-! ### A row among others -/

section
variable {lines : List Line} {row : Nat} {left right : Line}

/-- A row cut in two, among the rows of a text. -/
def Cut.inRow (lines : List Line) (row : Nat) (left right : Line) : Cut :=
  ⟨lines.take row, left, right, lines.drop (row + 1)⟩

theorem Cut.lines_inRow (h : row < lines.length) :
    (inRow lines row left right).lines = lines.set row (left ++ right) := by
  rw [List.set_eq_take_append_cons_drop, if_pos h]
  rfl

theorem Cut.position_inRow (h : row < lines.length) :
    (inRow lines row left right).position = ⟨row, Text.width left⟩ :=
  congrArg (Position.mk · (Text.width left)) (List.length_take_of_le (Nat.le_of_lt h))

theorem row_lt (h : lines[row]? = some left) : row < lines.length :=
  (List.getElem?_eq_some_iff.1 h).1

theorem set_self (h : lines[row]? = some left) : lines.set row left = lines := by
  obtain ⟨hrow, rfl⟩ := List.getElem?_eq_some_iff.1 h
  exact List.set_getElem_self hrow

theorem lineAt_set (h : row < lines.length) : lineAt (lines.set row left) row = left :=
  lineAt_of_getElem? (List.getElem?_set_self h)

end

/-! ### Edits -/

namespace TextDocument
variable {d : TextDocument} {row : Nat} {left mid right text : Line}

theorem insert_in_row (h : d.lines[row]? = some (left ++ right)) (ht : '\n' ∉ text) :
    (d.insert ⟨row, Text.width left⟩ text).doc =
      {d with lines := d.lines.set row (left ++ Text.dropReturn text ++ right)} := by
  have hrow := row_lt h
  have hlines : (Cut.inRow d.lines row left right).lines = d.lines := by
    rw [Cut.lines_inRow hrow, set_self h]
  have hposition : (Cut.inRow d.lines row left right).position = d.clamp ⟨row, Text.width left⟩ := by
    have hlies := (Cut.inRow d.lines row left right).liesIn
    rw [hlines, Cut.position_inRow hrow] at hlies
    rw [Cut.position_inRow hrow, clamp_of_liesIn hlies]
  have hpieces : Text.splitLines text = [Text.dropReturn text] := by
    rw [Text.splitLines, Text.cutAt_of_not_mem ht, List.map_singleton]
  refine ext_lines ?_ (Revision.make_listeners d (.insert ⟨row, Text.width left⟩ text))
  rw [(insert_cut hlines hposition text).1, hpieces]
  exact Cut.lines_inRow hrow

theorem remove_in_row (h : d.lines[row]? = some (left ++ (mid ++ right))) :
    let e := d.remove ⟨⟨row, Text.width left⟩, ⟨row, Text.width (left ++ mid)⟩⟩
    e.doc = {d with lines := d.lines.set row (left ++ right)} ∧
      e.position = ⟨row, Text.width left⟩ := by
  have hrow := row_lt h
  have hfirst : (Cut.inRow d.lines row left (mid ++ right)).lines = d.lines := by
    rw [Cut.lines_inRow hrow, set_self h]
  have hlast : (Cut.inRow d.lines row (left ++ mid) right).lines = d.lines := by
    rw [Cut.lines_inRow hrow, List.append_assoc, set_self h]
  have hle : (Cut.inRow d.lines row left (mid ++ right)).position ≤
      (Cut.inRow d.lines row (left ++ mid) right).position := by
    rw [Cut.position_inRow hrow, Cut.position_inRow hrow, Text.width_append]
    exact .inr ⟨rfl, Nat.le_add_right ..⟩
  have hremove := remove_eq_cut hfirst hlast (clampRange_cuts hfirst hlast hle)
  rw [Cut.position_inRow hrow, Cut.position_inRow hrow] at hremove
  intro e
  have hdoc : e.doc = {d with lines := (Cut.inRow d.lines row left right).lines} :=
    congrArg Edit.doc hremove
  rw [Cut.lines_inRow hrow] at hdoc
  exact ⟨hdoc, congrArg Edit.position hremove⟩

theorem replace_in_row (h : d.lines[row]? = some (left ++ (mid ++ right))) (ht : '\n' ∉ text) :
    (d.replace ⟨⟨row, Text.width left⟩, ⟨row, Text.width (left ++ mid)⟩⟩ text).doc =
      {d with lines := d.lines.set row (left ++ Text.dropReturn text ++ right)} := by
  obtain ⟨hdoc, hposition⟩ := remove_in_row h
  have hrow := row_lt h
  have hget : (d.lines.set row (left ++ right))[row]? = some (left ++ right) :=
    List.getElem?_set_self hrow
  have hinsert := insert_in_row (d := {d with lines := d.lines.set row (left ++ right)}) hget ht
  rw [List.set_set] at hinsert
  rw [replace, hdoc, hposition]
  exact hinsert

end TextDocument

end CodeEditing.Document
