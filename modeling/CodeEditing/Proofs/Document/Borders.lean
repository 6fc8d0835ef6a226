import CodeEditing.Proofs.Document.Partners
import CodeEditing.Proofs.Text.Bounds

/-! Partners at columns that are no borders.

Which bracket stands in front of a column, and what is behind it, are matters of the last character
border up to it (`findPartner_of_no_closing`). What is before a closing bracket is looked for one column
further front, so past the border the bracket is in it itself and counts as one more to close
(`findPartner_closing`). The search then goes on behind its partner (`seekPartner_deeper`) and finds the
bracket around the two, or none (`findPartner_floorColumn`). -/
namespace CodeEditing.Document

section
variable {same partner : Char} {depth : Nat} {cells : List Cell}

/-! ### One more open -/

/-- With one more bracket open the search goes on behind the cell it would have ended at. -/
theorem seekPartner_deeper (hne : same ≠ partner) (hd : 0 < depth) :
    (seekPartner same partner depth cells = none →
      seekPartner same partner (depth + 1) cells = none) ∧
    (∀ q, seekPartner same partner depth cells = some q → ∃ front back,
      cells = front ++ ⟨q, partner⟩ :: back ∧
      seekPartner same partner (depth + 1) cells = seekPartner same partner 1 back) := by
  induction cells generalizing depth with
  | nil => exact ⟨fun _ => rfl, fun _ => nofun⟩
  | cons x cells ih =>
    obtain ⟨-, more, -, hmore, hon⟩ :=
      (seekPartner_cons x cells hne (Nat.succ_pos depth)).resolve_left
        fun h => absurd h.2.1 (by omega)
    rw [hon]
    rcases seekPartner_cons x cells hne hd with
      ⟨rfl, rfl, hfound⟩ | ⟨hx, left, hpos, hleft, hgo⟩
    · rw [hfound]
      have hone : more = 1 := by
        simp only [timesOf_cons, timesOf_nil, if_pos, if_neg hne.symm] at hmore
        omega
      rw [hone]
      refine ⟨nofun, fun q h => ⟨[], cells, ?_, rfl⟩⟩
      rw [← Option.some.inj h]
      rfl
    · rw [hgo]
      obtain rfl : more = left + 1 := by omega
      refine ⟨(ih hpos).1, fun q h => ?_⟩
      obtain ⟨front, back, rfl, hback⟩ := (ih hpos).2 q h
      exact ⟨x :: front, back, rfl, hback⟩

end

/-! ### Where brackets are looked for -/

section
variable {lines : List Line} {row column : Nat} {c : Char}

/-- A character in front of a column is one that ends at the last border up to it. -/
theorem charAt?_of_before
    (h : (Text.before column (lineAt lines row)).getLast? = some c) :
    ∃ start, charAt? lines ⟨row, start⟩ = some c ∧
      Text.floorColumn column (lineAt lines row) = start + c.utf8Size := by
  obtain ⟨front, hfront⟩ := List.getLast?_eq_some_iff.1 h
  have hline : lineAt lines row = front ++ c :: Text.after column (lineAt lines row) := by
    have := Text.before_append_after column (lineAt lines row)
    rw [hfront, List.append_assoc] at this
    exact this.symm
  have hrow : lines[row]? = some (lineAt lines row) := getElem?_of_lineAt_ne_nil fun hnil =>
    List.append_ne_nil_of_right_ne_nil front (List.cons_ne_nil c _) (hline.symm.trans hnil)
  refine ⟨Text.width front, ?_, ?_⟩
  · rw [hline] at hrow
    rw [charAt?_width hrow]
    rfl
  · rw [Text.floorColumn, hfront]
    simp

theorem cellsBehind_floorColumn :
    cellsBehind lines ⟨row, Text.floorColumn column (lineAt lines row)⟩ =
      cellsBehind lines ⟨row, column⟩ := by
  unfold cellsBehind
  dsimp only
  cases hrows : lines.drop row with
  | nil => rfl
  | cons line more =>
    have hrow : lines[row]? = some line := by rw [← List.head?_drop, hrows]; rfl
    dsimp only
    rw [lineAt_of_getElem? hrow, Text.isBoundary_floorColumn, Text.after_floorColumn]

/-- Up to a column there is what there is up to any other from the last border on. -/
theorem cellsBefore_of_floorColumn_le {n : Nat} (hle : n ≤ column)
    (hfloor : Text.floorColumn column (lineAt lines row) ≤ n) :
    cellsBefore lines ⟨row, n⟩ = cellsBefore lines ⟨row, column⟩ := by
  unfold cellsBefore
  dsimp only
  rw [Text.before_eq_of_width_le hle hfloor]

/-- A closing bracket in front of a column: at its border it stands alone, past it it is met again by
the search and counts as one more to close. -/
theorem findPartner_closing {o : Char} (ho : openerOf? c = some o)
    (h : (Text.before column (lineAt lines row)).getLast? = some c) : ∃ start,
      charAt? lines ⟨row, start⟩ = some c ∧
      Text.floorColumn column (lineAt lines row) = start + 1 ∧
      findPartner lines ⟨row, start + 1⟩ = seekPartner c o 1 (cellsBefore lines ⟨row, start⟩) ∧
      (start + 1 < column →
        findPartner lines ⟨row, column⟩ = seekPartner c o 2 (cellsBefore lines ⟨row, start⟩)) := by
  have hk := openerOf?_eq_some_iff.1 ho
  obtain ⟨hne, -, hsize, hnone⟩ := bracket_facts hk
  obtain ⟨start, hc, hfloor⟩ := charAt?_of_before h
  rw [hsize] at hfloor
  refine ⟨start, hc, hfloor, findPartner_closer hk hc, fun hlt => ?_⟩
  have hcells : cellsBefore lines ⟨row, column - 1⟩ =
      ⟨⟨row, start⟩, c⟩ :: cellsBefore lines ⟨row, start⟩ := by
    have hbeside := (cells_beside hc).2
    rw [hsize] at hbeside
    dsimp only at hbeside
    rw [← hbeside, ← hfloor, cellsBefore_of_floorColumn_le (Nat.sub_le column 1) (by omega),
      cellsBefore_of_floorColumn_le (Text.floorColumn_le _ _) (Nat.le_refl _)]
  rw [findPartner]
  dsimp only
  rw [h]
  simp [hnone, ho, findOpener, hcells, seekPartner]

/-- Where no closing bracket stands in front of a column, nothing but the border before it counts. -/
theorem findPartner_of_no_closing
    (h : ∀ c ∈ (Text.before column (lineAt lines row)).getLast?, openerOf? c = none) :
    findPartner lines ⟨row, column⟩ =
      findPartner lines ⟨row, Text.floorColumn column (lineAt lines row)⟩ := by
  rw [findPartner, findPartner]
  dsimp only
  rw [Text.before_floorColumn]
  cases hlast : (Text.before column (lineAt lines row)).getLast? with
  | none => rfl
  | some c => simp [h c hlast, findCloser, cellsBehind_floorColumn]

/-- With one more to close a closing bracket has the partner of what could have been its own, which is
not that one. -/
theorem seekPartner_around {o : Char} {p q : Position} (ho : openerOf? c = some o)
    (hc : charAt? lines p = some c) (hq : seekPartner c o 1 (cellsBefore lines p) = some q) :
    seekPartner c o 2 (cellsBefore lines p) = findOpener lines c q.onward ∧
      findOpener lines c q.onward ≠ some q := by
  have hne : c ≠ o := (bracket_facts (openerOf?_eq_some_iff.1 ho)).1.symm
  obtain ⟨front, back, hcells, hmore⟩ := (seekPartner_deeper hne Nat.one_pos).2 q hq
  have hall := cells_at hc
  rw [hcells, List.reverse_append, List.reverse_cons, List.append_assoc, List.append_assoc] at hall
  have hback : cellsBefore lines q = back := by
    have := (cells_split hall).1
    rwa [List.reverse_reverse] at this
  have hfind : findOpener lines c q.onward = seekPartner c o 1 back := by
    rw [findOpener, ho, Option.bind_some, Position.onward]
    exact congrArg _ hback
  refine ⟨hmore.trans hfind.symm, fun hsame => ?_⟩
  -- what is found then stands before itself
  rw [hfind] at hsame
  have hmem : (⟨q, o⟩ : Cell) ∈ back := by
    rcases seekPartner_cases (R := fun _ _ => True) hne
      (List.pairwise_of_forall fun _ _ => trivial) Nat.one_pos with ⟨hnone, -⟩ | ⟨r, hr, hbalances, -⟩
    · exact absurd (hnone.symm.trans hsame) (Option.some_ne_none q).symm
    · obtain rfl : r = q := Option.some.inj (hr.symm.trans hsame)
      exact hbalances.mem
  have hsorted := pairwise_cellsFrom 0 lines
  rw [hall] at hsorted
  exact Position.lt_irrefl q
    ((List.pairwise_append.1 hsorted).2.2 _ (List.mem_reverse.2 hmem) _ List.mem_cons_self)

/-- **Partners past a border.** In front of a column there is the bracket that ends at the last border
up to it. From there on the partner is found as from the border, but for a closing bracket that has one:
this is then passed over for the opening bracket around it. -/
theorem findPartner_floorColumn (lines : List Line) (row column : Nat) :
    let front := Text.before column (lineAt lines row)
    let floor := Text.floorColumn column (lineAt lines row)
    let found := findPartner lines ⟨row, floor⟩
    (findPartner lines ⟨row, column⟩ = found ↔
      floor = column ∨ found = none ∨ ∀ c ∈ front.getLast?, openerOf? c = none) ∧
    (floor < column → ∀ c ∈ front.getLast?, (openerOf? c).isSome →
      findPartner lines ⟨row, column⟩ = found.bind fun q => findOpener lines c q.onward) := by
  intro front floor found
  rcases Nat.eq_or_lt_of_le (Text.floorColumn_le column (lineAt lines row)) with heq | hlt
  · have hsame : findPartner lines ⟨row, column⟩ = found :=
      congrArg (fun n => findPartner lines ⟨row, n⟩) heq.symm
    exact ⟨⟨fun _ => .inl heq, fun _ => hsame⟩, fun hlt => absurd heq (Nat.ne_of_lt hlt)⟩
  by_cases hno : ∀ c ∈ front.getLast?, openerOf? c = none
  · refine ⟨⟨fun _ => .inr (.inr hno), fun _ => findPartner_of_no_closing hno⟩, ?_⟩
    intro _ c hlast hsome
    exact absurd (hno c hlast) (Option.isSome_iff_ne_none.1 hsome)
  -- past the border of a closing bracket
  have hpast : ∀ c ∈ front.getLast?, (openerOf? c).isSome →
      findPartner lines ⟨row, column⟩ = found.bind (fun q => findOpener lines c q.onward) ∧
      (findPartner lines ⟨row, column⟩ = found ↔ found = none) := by
    intro c hlast hsome
    obtain ⟨o, ho⟩ := Option.isSome_iff_exists.1 hsome
    have hne : c ≠ o := (bracket_facts (openerOf?_eq_some_iff.1 ho)).1.symm
    obtain ⟨start, hc, hfloor, hfound, hlater⟩ := findPartner_closing ho hlast
    rw [← hfloor] at hfound hlater
    rw [hlater hlt]
    cases hq : found with
    | none =>
      have hdeeper := (seekPartner_deeper hne Nat.one_pos).1 (hfound.symm.trans hq)
      exact ⟨hdeeper, fun _ => rfl, fun _ => hdeeper⟩
    | some q =>
      obtain ⟨haround, hother⟩ := seekPartner_around ho hc (hfound.symm.trans hq)
      exact ⟨haround, fun hsame => absurd (haround.symm.trans hsame) hother, nofun⟩
  refine ⟨?_, fun _ c hlast hsome => (hpast c hlast hsome).1⟩
  simp only [not_forall] at hno
  obtain ⟨c, hlast, hsome⟩ := hno
  rw [(hpast c hlast (Option.isSome_iff_ne_none.2 hsome)).2]
  exact ⟨fun h => .inr (.inl h), fun h => h.elim (absurd · (Nat.ne_of_lt hlt))
    fun h => h.elim id fun hno => absurd (hno c hlast) hsome⟩

/-- Three columns of brackets and a column behind them: the bracket at the end closes the inner one at
the border, and the outer one past it. -/
theorem findPartner_floorColumn_past :
    let lines := ["(()".toList]
    Text.floorColumn 4 (lineAt lines 0) = 3 ∧
      findPartner lines ⟨0, 3⟩ = some ⟨0, 1⟩ ∧ findPartner lines ⟨0, 4⟩ = some ⟨0, 0⟩ := by
  have hfound : findPartner ["(()".toList] ⟨0, 3⟩ = some ⟨0, 1⟩ := by decide
  have hlater := (findPartner_floorColumn ["(()".toList] 0 4).2 (by decide) ')' (by decide) (by decide)
  refine ⟨by decide, hfound, hlater.trans ?_⟩
  decide

end

end CodeEditing.Document
