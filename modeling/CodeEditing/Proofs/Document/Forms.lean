import CodeEditing.Document.Delta
import CodeEditing.Document.Remark
import CodeEditing.Proofs.Json.Held

/-! Changes and remarks are read back as they were written.

`Delta.decodeValue_toJson` and `Remark.decodeValue_toJson` say it of the JSON form with its members
in the order of their keys, which is how both are sent. -/
namespace CodeEditing.Document

open Json (Decoder Node Record Value)

theorem Delta.sorted_toJson (d : Delta) : d.toJson.sorted =
    .object [("action", .string d.action.name), ("lines", .ofStrings (d.lines.map String.ofList)),
      ("range", d.range.toJson.sorted)] := by
  simp only [toJson, Value.sorted, Value.sortedMembers, Json.sorted_ofStrings]
  rfl

theorem toList_ofList_lines (lines : List Line) :
    (lines.map String.ofList).map String.toList = lines := by
  rw [List.map_map]
  exact (List.map_congr_left fun l _ => String.toList_ofList).trans (List.map_id lines)

/-- A change is read back as it was written. -/
theorem Delta.decodeValue_toJson (d : Delta) :
    Json.decodeValue Delta.record.decode d.toJson.sorted = .ok d := by
  have hlines : Except.map (fun ls => {Delta.record.blank with
      action := d.action, lines := ls.map String.toList})
        (Decoder.list Decoder.aString .held (Node.ofValue (.ofStrings (d.lines.map String.ofList)))) =
      .ok {Delta.record.blank with action := d.action, lines := d.lines} := by
    rw [Json.list_aString_ofStrings, Except.map, toList_ofList_lines]
  rw [Delta.sorted_toJson]
  refine Record.decodeValue_object ["range", "lines", "action"] ?_ rfl
  rw [Record.fillMembers_known {Delta.record.blank with action := d.action} rfl rfl
      (by cases d.action <;> rfl),
    Record.fillMembers_known _ rfl rfl hlines, Record.fillMembers_known d rfl rfl rfl]
  rfl

theorem Remark.sorted_toJson (a : Remark) : a.toJson.sorted =
    .object [("column", .ofNat a.column), ("row", .ofNat a.row), ("text", .string a.text),
      ("type", .string a.severity.name)] := by
  simp only [toJson, Value.sorted, Value.sortedMembers]
  rfl

/-- A remark is read back as it was written. -/
theorem Remark.decodeValue_toJson (a : Remark) :
    Json.decodeValue Remark.record.decode a.toJson.sorted = .ok a := by
  obtain ⟨row, column, text, severity⟩ := a
  rw [Remark.sorted_toJson]
  refine Record.decodeValue_object ["type", "text", "row", "column"] ?_ rfl
  rw [Record.fillMembers_known ⟨0, column, "", .error⟩ rfl rfl rfl,
    Record.fillMembers_known ⟨row, column, "", .error⟩ rfl rfl rfl,
    Record.fillMembers_known ⟨row, column, text, .error⟩ rfl rfl rfl,
    Record.fillMembers_known ⟨row, column, text, severity⟩ rfl rfl (by cases severity <;> rfl)]
  rfl

end CodeEditing.Document
