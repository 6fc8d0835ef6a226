import CodeEditing.Json.Shape

/-! Values that are held, taken apart by shape.

A record is filled in member by member: `Record.fillMembers_known` is one member, so that the
reading of a whole record is a chain of these. Lists of strings come back as they are. -/
namespace CodeEditing.Json

theorem sortedItems_strings (ss : List String) :
    Value.sortedItems (ss.map Value.string) = ss.map Value.string := by
  induction ss with
  | nil => rfl
  | cons s ss ih => simp only [List.map_cons, Value.sortedItems, Value.sorted, ih]

theorem sorted_ofStrings (ss : List String) : (Value.ofStrings ss).sorted = Value.ofStrings ss := by
  rw [Value.ofStrings, Value.sorted, sortedItems_strings]

theorem each_aString_ofItems (ss : List String) :
    Decoder.each Decoder.aString .held (Node.ofItems (ss.map Value.string)) = .ok ss := by
  induction ss with
  | nil => rfl
  | cons s ss ih =>
    simp only [List.map_cons, Node.ofItems, Decoder.each, ih]
    rfl

theorem list_aString_ofStrings (ss : List String) :
    Decoder.list Decoder.aString .held (Node.ofValue (Value.ofStrings ss)) = .ok ss := by
  simp only [Value.ofStrings, Node.ofValue, Decoder.list, each_aString_ofItems]

namespace Record
variable {σ : Type} {r : Record σ} {origin : Origin} {given : List String} {s : σ}
  {name : String} {more : List (MemberKey × Node)}

/-- A member of a known name that is there for the first time fills its field in. -/
theorem fillMembers_field {stop givenUp : Nat} {n : Node} {f : Field σ} (s' : σ)
    (hf : r.fields.find? (·.name == name) = some f) (hg : given.contains name = false)
    (hs : f.fill origin n s = .ok s') :
    r.fillMembers origin none given s ((⟨.ok name, none, stop, givenUp⟩, n) :: more) =
      r.fillMembers origin none (name :: given) s' more := by
  rw [fillMembers]
  simp only [hf, hg, hs]
  rfl

/-- The same of a member that is held. -/
theorem fillMembers_known {name : String} {f : Field σ} {v : Value} {ms : List (String × Value)}
    (s' : σ) (hf : r.fields.find? (·.name == name) = some f) (hg : given.contains name = false)
    (hs : f.fill origin (Node.ofValue v) s = .ok s') :
    r.fillMembers origin none given s (Node.ofMembers ((name, v) :: ms)) =
      r.fillMembers origin none (name :: given) s' (Node.ofMembers ms) := by
  rw [Node.ofMembers]
  exact fillMembers_field s' hf hg hs

/-- A record all of whose members are known. -/
theorem ofObject_known (names : List String) (place : Extent)
    (h : r.fillMembers origin none [] r.blank more = .ok (names, s))
    (hl : r.lacking? names = none) : r.ofObject origin (.object place more none) = .ok s := by
  rw [ofObject]
  simp only [h, hl]

theorem decodeValue_object {ms : List (String × Value)} (names : List String)
    (h : r.fillMembers .held none [] r.blank (Node.ofMembers ms) = .ok (names, s))
    (hl : r.lacking? names = none) : decodeValue r.decode (.object ms) = .ok s := by
  have ho : decodeValue r.decode (.object ms) =
      r.ofObject .held (.object ⟨0, 0⟩ (Node.ofMembers ms) none) := by
    rw [decodeValue, Node.ofValue]
    rfl
  exact ho.trans (ofObject_known names ⟨0, 0⟩ h hl)

end Record

end CodeEditing.Json
