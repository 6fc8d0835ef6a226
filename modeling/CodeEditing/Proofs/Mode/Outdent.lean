import CodeEditing.Mode.Basic
import CodeEditing.Proofs.Document.Partners
import CodeEditing.Proofs.Document.Returns
import CodeEditing.Proofs.Document.RowEdits

/-! Outdenting a closing brace.

In front of the closing brace a row begins with there are only blanks, so its partner is looked for in
the rows above alone (`outdentOf_eq`). An outdent changes nothing but these blanks: it cannot change
which brace is the partner, nor the row it stands in, and what is found is found again
(`outdentOf_set`). Hence a row is taken back once at most (`outdented_aligns`). -/
namespace CodeEditing.Mode

open Document

/-- The white space a row begins with. -/
def blanks (line : Line) : Line := line.takeWhile Text.isBlank

theorem blanks_append_trimStart (line : Line) : blanks line ++ Text.trimStart line = line :=
  Text.takeWhile_append_trimStart line

/-- The first text of a row is a closing brace. -/
def BeginsWithCloser (line : Line) : Prop := (Text.trimStart line).head? = some '\x7d'

instance (line : Line) : Decidable (BeginsWithCloser line) := inferInstanceAs (Decidable (_ = _))

/-- A brace opens a closing one: of those before it with as many opening as closing ones between it is
the last. -/
def Opens (lines : List Line) (p q : Position) : Prop :=
  Pairs lines '\x7b' '\x7d' p q ∧ ∀ r, Pairs lines '\x7b' '\x7d' r q → ¬p < r

/-- Blanks in front of a text are the blanks a row begins with. -/
theorem blanks_append {front back : Line} (hfront : ∀ c ∈ front, Text.isBlank c = true)
    (hback : ∀ c ∈ back.head?, Text.isBlank c = false) : blanks (front ++ back) = front :=
  (Text.cut_append hfront hback).1

/-! ### The row a brace is opened in -/

section
variable {lines : List Line} {row : Nat} {p : Position} {i : Line}

theorem seekPartner_append {same partner : Char} {depth : Nat} {front : List Cell}
    (h : ∀ x ∈ front, x.char ≠ same ∧ x.char ≠ partner) (back : List Cell) :
    seekPartner same partner depth (front ++ back) = seekPartner same partner depth back := by
  induction front with
  | nil => rfl
  | cons x front ih =>
    obtain ⟨hx, hfront⟩ := List.forall_mem_cons.1 h
    rw [List.cons_append, seekPartner, if_neg hx.1, if_neg hx.2, ih hfront]

/-- The position of the first text of a row. -/
def textStart (lines : List Line) (row : Nat) : Position :=
  ⟨row, Text.width (blanks (lineAt lines row))⟩

/-- Before the first text of a row there are its blanks and the rows above. -/
theorem cellsBefore_textStart (lines : List Line) (row : Nat) : ∃ front,
    cellsBefore lines (textStart lines row) = front ++ (cellsFrom 0 (lines.take row)).reverse ∧
      ∀ x ∈ front, x.char ≠ '\x7d' ∧ x.char ≠ '\x7b' := by
  have hbefore := Text.before_width (blanks (lineAt lines row)) (Text.trimStart (lineAt lines row))
  rw [blanks_append_trimStart] at hbefore
  refine ⟨(cellsOf row 0 (blanks (lineAt lines row))).reverse, ?_, fun x hx => ?_⟩
  · rw [cellsBefore, textStart, hbefore, List.reverse_append]
  · obtain ⟨a, b, hblanks, -⟩ := mem_cellsOf (List.mem_reverse.1 hx)
    have hblank : Text.isBlank x.char = true :=
      List.mem_takeWhile_imp (hblanks ▸ List.mem_append_right a List.mem_cons_self)
    constructor
    all_goals
      intro hbrace
      rw [hbrace] at hblank
      exact absurd hblank (by decide)

/-- What opens the brace a row begins with stands in a row above. -/
theorem row_lt_of_opens (h : Opens lines p (textStart lines row)) : p.row < row := by
  obtain ⟨front, hcells, hfront⟩ := cellsBefore_textStart lines row
  have hmem := ((balances_before_iff h.1.closes).2 h.1).mem
  rw [hcells, List.mem_append] at hmem
  rcases hmem with hmem | hmem
  · -- blanks are no braces
    exact absurd rfl (hfront _ hmem).2
  · obtain ⟨i, a, b, hi, hat⟩ := mem_cellsFrom (List.mem_reverse.1 hmem)
    have hrow : p.row = 0 + i := congrArg Position.row hat
    have hlt := row_lt hi
    rw [List.length_take] at hlt
    omega

/-- The last opening brace of some rows that none of them closes. -/
def openerAbove (above : List Line) : Option Position :=
  seekPartner '\x7d' '\x7b' 1 (cellsFrom 0 above).reverse

theorem getElem?_of_closer (h : BeginsWithCloser (lineAt lines row)) :
    lines[row]? = some (lineAt lines row) := by
  refine getElem?_of_lineAt_ne_nil fun hnil => ?_
  rw [BeginsWithCloser, hnil] at h
  exact nomatch h

theorem charAt?_textStart (h : BeginsWithCloser (lineAt lines row)) :
    charAt? lines (textStart lines row) = some '\x7d' := by
  have hrow := getElem?_of_closer h
  rw [← blanks_append_trimStart (lineAt lines row)] at hrow
  rw [textStart, charAt?_width hrow, h]

theorem findPartner_textStart (h : BeginsWithCloser (lineAt lines row)) :
    findPartner lines (textStart lines row).onward = openerAbove (lines.take row) := by
  obtain ⟨front, hcells, hfront⟩ := cellsBefore_textStart lines row
  rw [findPartner_closer (o := '\x7b') rfl (charAt?_textStart h), hcells,
    seekPartner_append hfront, openerAbove]

theorem findPartner_eq_some_iff (h : BeginsWithCloser (lineAt lines row)) :
    findPartner lines (textStart lines row).onward = some p ↔ Opens lines p (textStart lines row) :=
  (findPartner_closer_iff (o := '\x7b') rfl (charAt?_textStart h)).1

theorem closerColumn_eq {line : Line} (h : BeginsWithCloser line) :
    closerColumn line = some (Text.width (blanks line) + 1) := if_pos h

theorem outdentOf_eq_none (h : ¬BeginsWithCloser (lineAt lines row)) : outdentOf lines row = none := by
  have hcolumn : closerColumn (lineAt lines row) = none := if_neg h
  rw [outdentOf, hcolumn, Option.bind_none]

theorem outdentOf_of_closer (h : BeginsWithCloser (lineAt lines row)) : outdentOf lines row =
    (findPartner lines (textStart lines row).onward).bind fun p =>
      if p.row = row then none else some (indent (lineAt lines p.row)) := by
  rw [outdentOf, closerColumn_eq h, Option.bind_some]
  rfl

/-- The rows above alone tell which indentation a closing brace should have. -/
theorem outdentOf_eq (h : BeginsWithCloser (lineAt lines row)) : outdentOf lines row =
    (openerAbove (lines.take row)).map fun p => indent (lineAt (lines.take row) p.row) := by
  rw [outdentOf_of_closer h, ← findPartner_textStart h]
  cases hfound : findPartner lines (textStart lines row).onward with
  | none => rfl
  | some p =>
    have hlt := row_lt_of_opens ((findPartner_eq_some_iff h).1 hfound)
    have hline : lineAt (lines.take row) p.row = lineAt lines p.row := by
      rw [lineAt_eq, lineAt_eq, List.getElem?_take_of_lt hlt]
    rw [Option.bind_some, if_neg (Nat.ne_of_lt hlt), Option.map_some, hline]

theorem outdentOf_eq_some_iff : outdentOf lines row = some i ↔
    BeginsWithCloser (lineAt lines row) ∧
      ∃ p, Opens lines p (textStart lines row) ∧ i = indent (lineAt lines p.row) := by
  by_cases h : BeginsWithCloser (lineAt lines row)
  · rw [outdentOf_of_closer h, Option.bind_eq_some_iff]
    simp only [findPartner_eq_some_iff h, h, true_and]
    refine exists_congr fun p => and_congr_right fun hopens => ?_
    rw [if_neg (Nat.ne_of_lt (row_lt_of_opens hopens)), Option.some.injEq, eq_comm]
  · rw [outdentOf_eq_none h]
    exact ⟨nofun, fun ⟨hcloser, _⟩ => absurd hcloser h⟩

/-- Another row that begins with a closing brace gets the same indentation. -/
theorem outdentOf_set {line : Line} (h : BeginsWithCloser (lineAt lines row))
    (hline : BeginsWithCloser line) : outdentOf (lines.set row line) row = outdentOf lines row := by
  have hset : lineAt (lines.set row line) row = line := lineAt_set (row_lt (getElem?_of_closer h))
  have hcloser : BeginsWithCloser (lineAt (lines.set row line) row) := by rwa [hset]
  rw [outdentOf_eq hcloser, outdentOf_eq h, List.take_set_of_le (Nat.le_refl row)]

end

/-! ### Outdents -/

/-- An indentation put in the place of the blanks of a row. -/
def reindent (d : TextDocument) (row : Nat) (i : Line) : Edit :=
  d.replace ⟨⟨row, 0⟩, ⟨row, Text.width (blanks (d.line row))⟩⟩ i

section
variable {d : TextDocument} {row : Nat} {i : Line}

theorem autoOutdent_eq_none (h : outdentOf d.lines row = none) : autoOutdent d row = none := by
  rw [autoOutdent, h, Option.bind_none]

/-- A row that has the indentation already stays as it is. -/
theorem autoOutdent_eq (h : outdentOf d.lines row = some i) : autoOutdent d row =
    if blanks (d.line row) = i then none else some (reindent d row i) := by
  have hcloser : BeginsWithCloser (d.line row) := (outdentOf_eq_some_iff.1 h).1
  have hbefore := Text.before_width (blanks (d.line row)) (Text.trimStart (d.line row))
  rw [blanks_append_trimStart] at hbefore
  rw [autoOutdent, h, Option.bind_some, closerColumn_eq hcloser, Option.bind_some,
    Nat.add_sub_cancel, hbefore, reindent]

/-- An indentation has blanks and tabs alone. -/
theorem outdentOf_blank (h : outdentOf d.lines row = some i) : ∀ c ∈ i, isIndent c = true := by
  obtain ⟨-, p, -, rfl⟩ := outdentOf_eq_some_iff.1 h
  exact fun c => isIndent_of_mem_indent

theorem reindent_doc (h : outdentOf d.lines row = some i) : (reindent d row i).doc =
    {d with lines := d.lines.set row (i ++ Text.trimStart (d.line row))} := by
  have hrow : d.lines[row]? =
      some ([] ++ (blanks (d.line row) ++ Text.trimStart (d.line row))) := by
    rw [List.nil_append, blanks_append_trimStart]
    exact getElem?_of_closer (outdentOf_eq_some_iff.1 h).1
  have hno (c : Char) (hc : isIndent c = false) : c ∉ i := fun hmem =>
    Bool.false_ne_true (hc.symm.trans (outdentOf_blank h c hmem))
  have hreplace := TextDocument.replace_in_row hrow (hno '\n' (by decide))
  rw [Text.dropReturn_eq_self fun hr => hno '\r' (by decide) (List.mem_of_getLast? hr)] at hreplace
  exact hreplace

/-! ### Rows that are typed -/

theorem dropReturn_append (front : Line) {back : Line} (h : back ≠ []) :
    Text.dropReturn (front ++ back) = front ++ Text.dropReturn back := by
  induction front with
  | nil => rfl
  | cons c front ih =>
    have hmore : front ++ back ≠ [] := List.append_ne_nil_of_right_ne_nil front h
    rw [List.cons_append, Text.dropReturn_cons fun _ => hmore, ih, List.cons_append]

/-- Behind blanks, a text that begins with a closing brace makes the row begin with it. -/
theorem beginsWithCloser_of_asksOutdent {line input : Line} (h : asksOutdent line input = true) :
    BeginsWithCloser (line ++ Text.dropReturn input) := by
  rw [asksOutdent, Bool.and_eq_true, Bool.and_eq_true, beq_iff_eq] at h
  obtain ⟨⟨-, hblank⟩, hhead⟩ := h
  obtain ⟨rest, hrest⟩ := List.head?_eq_some_iff.1 hhead
  have hinput : input = blanks input ++ '\x7d' :: rest := by
    rw [← hrest, blanks_append_trimStart]
  have hclosing : Text.dropReturn ('\x7d' :: rest) = '\x7d' :: Text.dropReturn rest := by
    rw [Text.dropReturn_cons fun h => absurd h (by decide)]
  have hfront : ∀ c ∈ line ++ blanks input, Text.isBlank c = true := by
    intro c hc
    rcases List.mem_append.1 hc with hc | hc
    · exact List.all_eq_true.1 hblank c hc
    · exact List.mem_takeWhile_imp hc
  rw [hinput, dropReturn_append _ (List.cons_ne_nil _ _), hclosing, ← List.append_assoc,
    BeginsWithCloser, trimStart_append hfront fun c hc => by obtain rfl := Option.some.inj hc; decide]
  rfl

end

/-! ### What an outdent does -/

/-- Whether a row is outdented, the document after that, and the changes told. -/
def outdented (doc : TextDocument) (row : Nat) : Bool × Changed :=
  match autoOutdent doc row with
  | none => (false, .none doc)
  | some e => (true, ⟨e.doc, e.deltas⟩)

section
variable {d : TextDocument} {row : Nat} {i : Line}

theorem outdented_of_none (h : autoOutdent d row = none) : outdented d row = (false, .none d) := by
  rw [outdented, h]

theorem outdented_of_some {e : Edit} (h : autoOutdent d row = some e) :
    outdented d row = (true, ⟨e.doc, e.deltas⟩) := by
  rw [outdented, h]

theorem outdented_of_ne (h : outdentOf d.lines row = some i) (hne : i ≠ blanks (d.line row)) :
    outdented d row = (true, ⟨(reindent d row i).doc, (reindent d row i).deltas⟩) :=
  outdented_of_some (by rw [autoOutdent_eq h, if_neg hne.symm])

theorem outdented_of_eq (h : outdentOf d.lines row = some i) (heq : blanks (d.line row) = i) :
    outdented d row = (false, .none d) :=
  outdented_of_none (by rw [autoOutdent_eq h, if_pos heq])

theorem outdented_iff : (outdented d row).1 = true ↔
    ∃ i, outdentOf d.lines row = some i ∧ i ≠ blanks (d.line row) := by
  cases h : outdentOf d.lines row with
  | none =>
    rw [outdented_of_none (autoOutdent_eq_none h)]
    exact ⟨nofun, nofun⟩
  | some i =>
    by_cases heq : blanks (d.line row) = i
    · rw [outdented_of_eq h heq]
      exact ⟨nofun, fun ⟨j, hj, hne⟩ => absurd ((Option.some.inj hj).symm.trans heq.symm) hne⟩
    · rw [outdented_of_ne h (Ne.symm heq)]
      exact ⟨fun _ => ⟨i, rfl, Ne.symm heq⟩, fun _ => rfl⟩

/-- Whoever makes the changes of an outdent again gets the same lines. -/
theorem reindent_again {e : TextDocument} (h : outdentOf d.lines row = some i)
    (he : e.lines = d.lines) :
    (e.applyDeltas (reindent d row i).deltas).lines = (reindent d row i).doc.lines := by
  have hrow := getElem?_of_closer (outdentOf_eq_some_iff.1 h).1
  have hne : d.lines ≠ [] := List.ne_nil_of_mem (List.mem_of_getElem? hrow)
  refine (Revision.make_again_iff hne he (.replace _ i)).2 fun text hmem hdouble => ?_
  obtain rfl := List.mem_singleton.1 hmem
  -- only a return at the end of a text could make another line of it
  have hreturn : '\r' ∈ text := hdouble.elim (fun hin => hin.subset List.mem_cons_self)
    fun hsuffix => hsuffix.subset List.mem_cons_self
  exact absurd (outdentOf_blank h '\r' hreturn) (by decide)

/-- With its new indentation a row has the blanks it should have. -/
theorem blanks_outdent (h : outdentOf d.lines row = some i) :
    blanks (i ++ Text.trimStart (d.line row)) = i ∧
      Text.trimStart (i ++ Text.trimStart (d.line row)) = Text.trimStart (d.line row) := by
  have hcloser : BeginsWithCloser (d.line row) := (outdentOf_eq_some_iff.1 h).1
  have hfront : ∀ c ∈ i, Text.isBlank c = true := fun c hc =>
    isBlank_of_isIndent (outdentOf_blank h c hc)
  have hback : ∀ c ∈ (Text.trimStart (d.line row)).head?, Text.isBlank c = false := by
    intro c hc
    obtain rfl := Option.some.inj (hcloser.symm.trans hc)
    decide
  exact ⟨blanks_append hfront hback, trimStart_append hfront hback⟩

/-- An outdent does not change which indentation a row should have, and the row has it then. -/
theorem outdentOf_reindent (h : outdentOf d.lines row = some i) :
    outdentOf (reindent d row i).doc.lines row = some i ∧
      blanks ((reindent d row i).doc.line row) = i := by
  have hcloser : BeginsWithCloser (d.line row) := (outdentOf_eq_some_iff.1 h).1
  obtain ⟨hblanks, htrim⟩ := blanks_outdent h
  have hline : BeginsWithCloser (i ++ Text.trimStart (d.line row)) := by
    rw [BeginsWithCloser, htrim]
    exact hcloser
  rw [reindent_doc h]
  refine ⟨(outdentOf_set hcloser hline).trans h, ?_⟩
  rw [TextDocument.line, lineAt_set (row_lt (getElem?_of_closer hcloser)), hblanks]

theorem unchanged_of_not_outdented (h : (outdented d row).1 = false) :
    (outdented d row).2 = .none d := by
  cases hout : autoOutdent d row with
  | none => rw [outdented_of_none hout]
  | some e =>
    rw [outdented_of_some hout] at h
    exact absurd h.symm Bool.false_ne_true

/-- Typing that asks for an outdent makes the row begin with a closing brace. -/
theorem beginsWithCloser_insert {input : List Char} (h : asksOutdent (d.line row) input = true)
    (hfeed : '\n' ∉ input) :
    BeginsWithCloser ((d.insert ⟨row, Text.width (d.line row)⟩ input).doc.line row) := by
  have hline : d.line row ≠ [] := by
    intro hnil
    rw [hnil] at h
    exact Bool.false_ne_true h
  have hrow : d.lines[row]? = some (d.line row ++ []) := by
    rw [List.append_nil]
    exact getElem?_of_lineAt_ne_nil hline
  rw [TextDocument.insert_in_row hrow hfeed, TextDocument.line, lineAt_set (row_lt hrow),
    List.append_nil]
  exact beginsWithCloser_of_asksOutdent h

end

/-- **A closing brace is lined up once.** The indentation a row should have is that of the row with the
partner of the closing brace it begins with, a row further up. The row is outdented if its white space is
something else. Then it gets this indentation and keeps its text, the other rows stay, and whoever makes
the changes again gets the same lines; it should have the same indentation as before, and a second
outdent does nothing. When a row is not outdented there is no change. Typing that asks for an outdent
makes the row begin with a closing brace. -/
theorem outdented_aligns (d : TextDocument) (row : Nat) :
    let line := d.line row
    (∀ i, outdentOf d.lines row = some i ↔ BeginsWithCloser line ∧
      ∃ p, Opens d.lines p (textStart d.lines row) ∧ i = indent (d.line p.row)) ∧
    (∀ p, Opens d.lines p (textStart d.lines row) → p.row < row) ∧
    ((outdented d row).1 = true ↔ ∃ i, outdentOf d.lines row = some i ∧ i ≠ blanks line) ∧
    (∀ i, outdentOf d.lines row = some i → i ≠ blanks line →
      let c := (outdented d row).2
      row < d.lines.length ∧
        c.doc = {d with lines := d.lines.set row (i ++ Text.trimStart line)} ∧
        (∀ e : TextDocument, e.lines = d.lines → (e.applyDeltas c.deltas).lines = c.doc.lines) ∧
        outdentOf c.doc.lines row = some i ∧
        outdented c.doc row = (false, .none c.doc)) ∧
    ((outdented d row).1 = false → (outdented d row).2 = .none d) ∧
    ∀ input, asksOutdent line input = true → '\n' ∉ input →
      BeginsWithCloser ((d.insert ⟨row, Text.width line⟩ input).doc.line row) := by
  intro line
  refine ⟨fun i => outdentOf_eq_some_iff, fun p => row_lt_of_opens, outdented_iff,
    fun i hi hne => ?_, unchanged_of_not_outdented, fun input => beginsWithCloser_insert⟩
  have hrow := row_lt (getElem?_of_closer (outdentOf_eq_some_iff.1 hi).1)
  obtain ⟨hagain, hblanks⟩ := outdentOf_reindent hi
  rw [outdented_of_ne hi hne]
  exact ⟨hrow, reindent_doc hi, fun e he => reindent_again hi he, hagain,
    outdented_of_eq hagain hblanks⟩

/-- A closing brace behind a no-break space, and a row of blanks below on which another one is typed. -/
theorem outdented_aligns_wide :
    let d := TextDocument.ofText "    if (x) \x7b\n  y();\n\u00a0 \x7d;\n\t".toList
    outdentOf d.lines 2 = some "    ".toList ∧ (outdented d 2).1 = true ∧
      (outdented d 2).2.doc.lines =
        ["    if (x) \x7b".toList, "  y();".toList, "    \x7d;".toList, "\t".toList] ∧
      (d.applyDeltas (outdented d 2).2.deltas).lines = (outdented d 2).2.doc.lines ∧
      outdented (outdented d 2).2.doc 2 = (false, .none (outdented d 2).2.doc) ∧
      BeginsWithCloser ((d.insert ⟨3, 1⟩ " \x7d\r".toList).doc.line 3) := by
  intro d
  obtain ⟨-, -, hchanged, hdone, -, -⟩ := outdented_aligns d 2
  have hfound : outdentOf d.lines 2 = some "    ".toList := by decide
  have hother : "    ".toList ≠ blanks (d.line 2) := by decide
  obtain ⟨-, hdoc, hagain, -, hsecond⟩ := hdone _ hfound hother
  obtain ⟨-, -, -, -, -, htyped⟩ := outdented_aligns d 3
  exact ⟨hfound, hchanged.2 ⟨_, hfound, hother⟩, (congrArg TextDocument.lines hdoc).trans (by decide),
    hagain d rfl, hsecond, htyped " \x7d\r".toList (by decide) (by decide)⟩

end CodeEditing.Mode
