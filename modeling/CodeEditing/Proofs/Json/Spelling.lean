import CodeEditing.Proofs.Json.Held

/-! Nodes that stand for a value.

A node `Spells` a value if nothing is wrong in it and its parts are those of the value, wherever
they stand. It can be passed over, and who takes it over gets the value with its members in the
order of their keys if it is not nested too deeply for him (`Node.Spells.value`), and only then
(`Node.Spells.tooDeep`). From members that are spelt a record is filled in member by member. -/
namespace CodeEditing.Json

/-! ### Nesting -/

namespace Value

mutual

/-- How many lists and objects lie inside each other. -/
def nesting : Value → Nat
  | array items => nestingOfItems items + 1
  | object ms => nestingOfMembers ms + 1
  | null | bool _ | number _ | string _ => 0

def nestingOfItems : List Value → Nat
  | [] => 0
  | v :: vs => max v.nesting (nestingOfItems vs)

def nestingOfMembers : List (String × Value) → Nat
  | [] => 0
  | (_, v) :: ms => max v.nesting (nestingOfMembers ms)

end

theorem nesting_lt_array {v : Value} {vs : List Value} (h : v ∈ vs) :
    v.nesting < (array vs).nesting := by
  refine Nat.lt_succ_of_le ?_
  induction h with
  | head vs => exact Nat.le_max_left _ _
  | tail w _ ih => exact Nat.le_trans ih (Nat.le_max_right _ _)

theorem nesting_lt_object {k : String} {v : Value} {ms : List (String × Value)}
    (h : (k, v) ∈ ms) : v.nesting < (object ms).nesting := by
  refine Nat.lt_succ_of_le ?_
  induction ms with
  | nil => cases h
  | cons m ms ih =>
    rcases h with _ | ⟨_, h⟩
    · exact Nat.le_max_left _ _
    · exact Nat.le_trans (ih h) (Nat.le_max_right _ _)

end Value

/-! ### Nodes without flaws -/

mutual

/-- A node that stands for a value and has nothing wrong in it. -/
inductive Node.Spells : Node → Value → Prop
  | null (place : Extent) : Spells (.null place) .null
  | bool (place : Extent) (b : Bool) : Spells (.bool place b) (.bool b)
  | number (place : Extent) (n : Number) : Spells (.number place (.ok n)) (.number n)
  | string (place : Extent) (s : String) : Spells (.string place (.ok s)) (.string s)
  | array (place : Extent) {ns : List Node} {vs : List Value} :
    SpellItems ns vs → Spells (.array place ns none) (.array vs)
  | object (place : Extent) {ns : List (MemberKey × Node)} {ms : List (String × Value)} :
    SpellMembers ns ms → Spells (.object place ns none) (.object ms)

inductive Node.SpellItems : List Node → List Value → Prop
  | nil : SpellItems [] []
  | cons {n : Node} {v : Value} {ns : List Node} {vs : List Value} :
    Spells n v → SpellItems ns vs → SpellItems (n :: ns) (v :: vs)

inductive Node.SpellMembers : List (MemberKey × Node) → List (String × Value) → Prop
  | nil : SpellMembers [] []
  | cons (name : String) (stop givenUp : Nat) {n : Node} {v : Value}
    {ns : List (MemberKey × Node)} {ms : List (String × Value)} :
    Spells n v → SpellMembers ns ms →
      SpellMembers ((⟨.ok name, none, stop, givenUp⟩, n) :: ns) ((name, v) :: ms)

end

namespace Node

mutual

theorem Spells.passed {n : Node} {v : Value} : n.Spells v → n.passed = none
  | .null _ | .bool _ _ | .number _ _ | .string _ _ => by simp only [Node.passed]
  | .array _ h => by simp only [Node.passed, h.passed, Option.map_none]
  | .object _ h => by simp only [Node.passed, h.passed, Option.map_none]

theorem SpellItems.passed {ns : List Node} {vs : List Value} :
    SpellItems ns vs → passedItems ns = none
  | .nil => by simp only [passedItems]
  | .cons h hs => by simp only [passedItems, h.passed, hs.passed]

theorem SpellMembers.passed {ns : List (MemberKey × Node)} {ms : List (String × Value)} :
    SpellMembers ns ms → passedMembers ns = none
  | .nil => by simp only [passedMembers]
  | .cons _ _ _ h hs => by simp only [passedMembers, h.passed, hs.passed]

end

mutual

/-- A value that is not nested too deeply is taken over. -/
theorem Spells.value {n : Node} {v : Value} {depth : Nat} :
    n.Spells v → v.nesting < depth → n.value depth = .ok v.sorted
  | .null _, _ | .bool _ _, _ | .number _ _, _ | .string _ _, _ => by
    simp only [Node.value, Value.sorted, Except.map]
  | .array _ h, hd => by
    have hd : Value.nestingOfItems _ < depth - 1 := Nat.lt_sub_of_add_lt hd
    have hle : ¬depth ≤ 1 := by omega
    simp only [Node.value, if_neg hle, h.value hd, Value.sorted]
  | .object _ h, hd => by
    have hd : Value.nestingOfMembers _ < depth - 1 := Nat.lt_sub_of_add_lt hd
    have hle : ¬depth ≤ 1 := by omega
    simp only [Node.value, if_neg hle, h.value hd, Value.sorted, Value.ofPairs]

theorem SpellItems.value {ns : List Node} {vs : List Value} {depth : Nat} :
    SpellItems ns vs → Value.nestingOfItems vs < depth →
      valueItems depth ns = .ok (Value.sortedItems vs)
  | .nil, _ => by simp only [valueItems, Value.sortedItems]
  | .cons h hs, hd => by
    obtain ⟨hv, hvs⟩ := Nat.max_lt.1 hd
    simp only [valueItems, h.value hv, hs.value hvs, Value.sortedItems, Except.map]

theorem SpellMembers.value {ns : List (MemberKey × Node)} {ms : List (String × Value)}
    {depth : Nat} : SpellMembers ns ms → Value.nestingOfMembers ms < depth →
      valueMembers depth ns = .ok (Value.sortedMembers ms)
  | .nil, _ => by simp only [valueMembers, Value.sortedMembers]
  | .cons _ _ _ h hs, hd => by
    obtain ⟨hv, hms⟩ := Nat.max_lt.1 hd
    simp only [valueMembers, h.value hv, hs.value hms, Value.sortedMembers, Except.map]

end

mutual

/-- A value that is nested too deeply is refused for that. -/
theorem Spells.tooDeep {n : Node} {v : Value} {depth : Nat} :
    n.Spells v → 0 < depth → depth ≤ v.nesting → ∃ at_, n.value depth = .error ⟨.tooDeep, at_⟩
  | .null _, hpos, hd | .bool _ _, hpos, hd | .number _ _, hpos, hd | .string _ _, hpos, hd =>
    absurd hd (Nat.not_le.2 hpos)
  | .array place h, _, hd => by
    by_cases hle : depth ≤ 1
    · exact ⟨place.start + 1, by simp only [Node.value, if_pos hle]⟩
    · obtain ⟨at_, hitems⟩ := h.tooDeep (Nat.sub_pos_of_lt (Nat.not_le.1 hle))
        (Nat.sub_le_of_le_add hd)
      exact ⟨at_, by simp only [Node.value, if_neg hle, hitems]⟩
  | .object place h, _, hd => by
    by_cases hle : depth ≤ 1
    · exact ⟨place.start + 1, by simp only [Node.value, if_pos hle]⟩
    · obtain ⟨at_, hmembers⟩ := h.tooDeep (Nat.sub_pos_of_lt (Nat.not_le.1 hle))
        (Nat.sub_le_of_le_add hd)
      exact ⟨at_, by simp only [Node.value, if_neg hle, hmembers]⟩

theorem SpellItems.tooDeep {ns : List Node} {vs : List Value} {depth : Nat} :
    SpellItems ns vs → 0 < depth → depth ≤ Value.nestingOfItems vs →
      ∃ at_, valueItems depth ns = .error ⟨.tooDeep, at_⟩
  | .nil, hpos, hd => absurd hd (Nat.not_le.2 hpos)
  | .cons (v := v) h hs, hpos, hd => by
    by_cases hv : v.nesting < depth
    · simp only [Value.nestingOfItems] at hd
      obtain ⟨at_, hitems⟩ := hs.tooDeep hpos (by omega)
      exact ⟨at_, by simp only [valueItems, h.value hv, hitems, Except.map]⟩
    · obtain ⟨at_, hvalue⟩ := h.tooDeep hpos (Nat.not_lt.1 hv)
      exact ⟨at_, by simp only [valueItems, hvalue]⟩

theorem SpellMembers.tooDeep {ns : List (MemberKey × Node)} {ms : List (String × Value)}
    {depth : Nat} : SpellMembers ns ms → 0 < depth → depth ≤ Value.nestingOfMembers ms →
      ∃ at_, valueMembers depth ns = .error ⟨.tooDeep, at_⟩
  | .nil, hpos, hd => absurd hd (Nat.not_le.2 hpos)
  | .cons (v := v) _ _ _ h hs, hpos, hd => by
    by_cases hv : v.nesting < depth
    · simp only [Value.nestingOfMembers] at hd
      obtain ⟨at_, hmembers⟩ := hs.tooDeep hpos (by omega)
      exact ⟨at_, by simp only [valueMembers, h.value hv, hmembers, Except.map]⟩
    · obtain ⟨at_, hvalue⟩ := h.tooDeep hpos (Nat.not_lt.1 hv)
      exact ⟨at_, by simp only [valueMembers, hvalue]⟩

end

theorem Spells.of_array {n : Node} {vs : List Value} (h : n.Spells (.array vs)) :
    ∃ place ns, n = .array place ns none ∧ SpellItems ns vs := by
  cases h with
  | array place h => exact ⟨place, _, rfl, h⟩

theorem Spells.of_object {n : Node} {ms : List (String × Value)} (h : n.Spells (.object ms)) :
    ∃ place ns, n = .object place ns none ∧ SpellMembers ns ms := by
  cases h with
  | object place h => exact ⟨place, _, rfl, h⟩

end Node

/-! ### Decoding -/

namespace Record
variable {σ : Type} {r : Record σ} {origin : Origin} {given : List String} {s : σ}
  {ms : List (String × Value)}

/-- Members of unknown names are passed over. -/
theorem fillMembers_foreign {ns : List (MemberKey × Node)} (h : Node.SpellMembers ns ms)
    (hforeign : ∀ m ∈ ms, r.fields.find? (·.name == m.1) = none) :
    r.fillMembers origin none given s ns = .ok (given, s) := by
  induction ms generalizing ns with
  | nil =>
    cases h
    rfl
  | cons m ms ih =>
    obtain ⟨hm, hms⟩ := List.forall_mem_cons.1 hforeign
    rcases h with _ | ⟨name, _, _, hn, hrest⟩
    rw [fillMembers]
    simp only [hm, hn.passed]
    exact ih hrest hms

/-- An object that has no member of a record is not that record if the record needs one. -/
theorem ofObject_foreign {n : Node} {name : String} (h : n.Spells (.object ms))
    (hforeign : ∀ m ∈ ms, r.fields.find? (·.name == m.1) = none)
    (hl : r.lacking? [] = some name) : ∃ e, r.ofObject origin n = .error e := by
  obtain ⟨place, ns, rfl, hms⟩ := h.of_object
  rw [ofObject, fillMembers_foreign hms hforeign]
  simp only [hl]
  exact ⟨_, rfl⟩

end Record

section
variable {α σ : Type} {d : Decoder α} {a : α} {origin : Origin} {n : Node} {name : String}
  {set : α → σ → σ} {s : σ}

theorem Field.fill_needed (h : d origin n = .ok a) :
    (needed name d set).fill origin n s = .ok (set a s) := by
  simp only [needed, h, Except.map]

theorem Field.fill_optional (h : d origin n = .ok a) :
    (optional name d set).fill origin n s = .ok (set a s) := by
  simp only [optional, h, Except.map]

end

namespace Decoder
variable {n : Node}

theorem any_of_spells {v : Value} (h : n.Spells v) (hnest : v.nesting < Node.maxDepth)
    (hsorted : v.sorted = v) (origin : Origin) : any origin n = .ok v := by
  rw [any]
  simp only [h.value hnest, hsorted]

theorem each_any_of_spells {ns : List Node} {vs : List Value} (h : Node.SpellItems ns vs)
    (hnest : ∀ v ∈ vs, v.nesting < Node.maxDepth) (hsorted : ∀ v ∈ vs, v.sorted = v)
    (origin : Origin) : each any origin ns = .ok vs := by
  induction vs generalizing ns with
  | nil =>
    cases h
    rfl
  | cons v vs ih =>
    rcases h with _ | ⟨hv, hvs⟩
    obtain ⟨hn, hns⟩ := List.forall_mem_cons.1 hnest
    obtain ⟨ho, hos⟩ := List.forall_mem_cons.1 hsorted
    rw [each, any_of_spells hv hn ho]
    simp only [ih hvs hns hos]
    rfl

theorem list_any_of_spells {vs : List Value} (h : n.Spells (.array vs))
    (hnest : ∀ v ∈ vs, v.nesting < Node.maxDepth) (hsorted : ∀ v ∈ vs, v.sorted = v)
    (origin : Origin) : list any origin n = .ok vs := by
  obtain ⟨place, ns, rfl, hvs⟩ := h.of_array
  rw [list, each_any_of_spells hvs hnest hsorted]

theorem eachMember_aString_of_spells {ns : List (MemberKey × Node)}
    {pairs : List (String × String)}
    (h : Node.SpellMembers ns (pairs.map fun (k, s) => (k, .string s))) (origin : Origin) :
    eachMember aString origin ns = .ok pairs := by
  induction pairs generalizing ns with
  | nil =>
    cases h
    rfl
  | cons p pairs ih =>
    rcases h with _ | ⟨_, _, _, ⟨⟩, hrest⟩
    rw [eachMember]
    simp only [ih hrest]
    rfl

end Decoder

end CodeEditing.Json
