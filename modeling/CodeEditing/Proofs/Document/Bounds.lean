import CodeEditing.Document.Brackets
import CodeEditing.Proofs.Document.FlatText
import CodeEditing.Proofs.Text.Bounds

/-! Edits stay within bounds.

The rows of a document are kept in memory, where an edit fetches a row by its number, cuts it at a
column, drains rows and splices others in. Each of these steps can go wrong, and then gives nothing: a
row is not there, a column is not on a character boundary of its row, rows end before they begin or
behind the last one, a number is taken from a smaller one. `insert?`, `remove?` and the others are the
edits in such steps. Positions are clamped before a row is fetched, so on a document with a line nothing
goes wrong, and what comes about is the edit itself (`insert?_eq`, `remove?_eq`, `use?_eq`). Looking for the
partner of a bracket goes well in any lines (`findPartner?_eq`). -/
namespace CodeEditing.Document

/-! ### Rows -/

/-- Rows with others put in at a place that is not behind the last one. -/
def splice? (at_ : Nat) (rows lines : List Line) : Option (List Line) :=
  if at_ ≤ lines.length then some (lines.take at_ ++ rows ++ lines.drop at_) else none

/-- The rows of a stretch taken out, and what is left, if the stretch does not end before it begins or
behind the last row. -/
def drain? (start stop : Nat) (lines : List Line) : Option (List Line × List Line) :=
  if start ≤ stop ∧ stop ≤ lines.length then
    some ((lines.take stop).drop start, lines.take start ++ lines.drop stop)
  else none

namespace Cut

theorem set_lines (c : Cut) (line : Line) :
    c.lines.set c.position.row line = c.above ++ line :: c.below := by
  rw [Cut.lines, Cut.position, List.set_append_right _ _ (Nat.le_refl _), Nat.sub_self]
  rfl

theorem getElem?_lines (c : Cut) : c.lines[c.position.row]? = some (c.left ++ c.right) := by
  rw [Cut.lines, Cut.position, List.getElem?_append_right (Nat.le_refl _), Nat.sub_self]
  rfl

theorem cut?_row (c : Cut) :
    Text.cut? c.position.column (c.left ++ c.right) = some (c.left, c.right) := Text.cut?_append _ _

/-- The slice of a row between two cuts in it. -/
theorem slice?_beside {c e : Cut} {m : Line} (hleft : e.left = c.left ++ m)
    (hright : c.right = m ++ e.right) :
    Text.slice? c.position.column e.position.column (c.left ++ c.right) = some m := by
  rw [hright, ← List.append_assoc, position, position, hleft]
  exact Text.slice?_append _ _ _

/-- The rows below a cut down to a later one, taken out. -/
theorem drain?_below {c e : Cut} {rows : List Line} (hlines : c.lines = e.lines)
    (habove : e.above = c.above ++ (c.left ++ c.right) :: rows) :
    drain? (c.position.row + 1) (e.position.row + 1) c.lines =
      some (rows ++ [e.left ++ e.right], c.above ++ (c.left ++ c.right) :: e.below) := by
  have hrow := row_lt_of_below habove
  have hlen : e.position.row + 1 ≤ c.lines.length := hlines ▸ e.liesIn.1
  have htake : (c.lines.take (e.position.row + 1)).drop (c.position.row + 1) =
      rows ++ [e.left ++ e.right] := by
    have hsplit : c.lines =
        ((c.above ++ [c.left ++ c.right]) ++ (rows ++ [e.left ++ e.right])) ++ e.below := by
      rw [hlines, lines, habove]
      simp
    have hc : c.position.row + 1 = (c.above ++ [c.left ++ c.right]).length := by simp [position]
    have he : e.position.row + 1 =
        ((c.above ++ [c.left ++ c.right]) ++ (rows ++ [e.left ++ e.right])).length := by
      rw [position, habove]
      simp only [List.length_append, List.length_cons, List.length_nil]
      omega
    rw [hsplit, he, List.take_left, hc, List.drop_left]
  have hleft : c.lines.take (c.position.row + 1) = c.above ++ [c.left ++ c.right] := by
    rw [List.take_add_one, c.take_lines, c.getElem?_lines]
    rfl
  rw [drain?, if_pos ⟨Nat.succ_le_succ (Nat.le_of_lt hrow), hlen⟩, htake, hleft, hlines, e.drop_lines,
    List.append_assoc]
  rfl

theorem splice?_below (c : Cut) (line : Line) (rows : List Line) :
    splice? (c.position.row + 1) rows (c.above ++ line :: c.below) =
      some (c.above ++ line :: (rows ++ c.below)) := by
  have hrow : c.position.row + 1 = (c.above ++ [line]).length := by simp [position]
  have hsplit : c.above ++ line :: c.below = (c.above ++ [line]) ++ c.below := by simp
  rw [hrow, hsplit, splice?, if_pos (by simp), List.take_left, List.drop_left]
  simp

end Cut

namespace TextDocument

def endPosition? (d : TextDocument) : Option Position := do
  let row ← Text.minus? d.lines.length 1
  let line ← d.lines[row]?
  some ⟨row, Text.width line⟩

def clamp? (d : TextDocument) (p : Position) : Option Position :=
  if p.row ≥ d.lines.length then d.endPosition?
  else do
    let line ← d.lines[p.row]?
    let column ← Text.floorColumn? p.column line
    some ⟨p.row, column⟩

/-- Puts a text in. The first piece goes behind what is to the left of the position; what is to the
right of it goes behind the last piece, in the same row or in one of those spliced in below. -/
def insert? (d : TextDocument) (p : Position) (text : List Char) : Option Edit := do
  let start ← d.clamp? p
  if text = [] then some ⟨d, start, []⟩
  else
    let pieces := Text.splitLines text
    let line ← d.lines[start.row]?
    let (left, right) ← Text.cut? start.column line
    let first ← pieces[0]?
    if pieces.length = 1 then
      let stop : Position := ⟨start.row, start.column + Text.width first⟩
      some ⟨{d with lines := d.lines.set start.row (left ++ first ++ right)}, stop,
        [⟨.insert, ⟨start, stop⟩, pieces⟩]⟩
    else
      let (_, rest) ← drain? 0 1 pieces
      let last ← Text.minus? rest.length 1
      let piece ← rest[last]?
      let stop : Position := ⟨start.row + rest.length, Text.width piece⟩
      let lines ← splice? (start.row + 1) (rest.set last (piece ++ right))
        (d.lines.set start.row (left ++ first))
      some ⟨{d with lines}, stop, [⟨.insert, ⟨start, stop⟩, pieces⟩]⟩

/-- Takes out a range. Within a row that is a slice of it; otherwise the rows below the first are
drained, and what is to the right of the range in the last of them goes into the first. -/
def remove? (d : TextDocument) (range : Range) : Option Edit := do
  let a ← d.clamp? range.start
  let b ← d.clamp? range.stop
  let r := Range.ofPoints a b
  if r.isEmpty then some ⟨d, r.start, []⟩
  else if r.start.row = r.stop.row then
    let line ← d.lines[r.start.row]?
    let piece ← Text.slice? r.start.column r.stop.column line
    let (left, _) ← Text.cut? r.start.column line
    let (_, right) ← Text.cut? r.stop.column line
    some ⟨{d with lines := d.lines.set r.start.row (left ++ right)}, r.start,
      [⟨.remove, r, [piece]⟩]⟩
  else
    let _ ← Text.minus? r.stop.row r.start.row
    let line ← d.lines[r.start.row]?
    let (left, first) ← Text.cut? r.start.column line
    let (drained, lines) ← drain? (r.start.row + 1) (r.stop.row + 1) d.lines
    let (last, right) ← Text.cut? r.stop.column (drained.getLast?.getD [])
    let _ ← lines[r.start.row]?
    some ⟨{d with lines := lines.set r.start.row (left ++ right)}, r.start,
      [⟨.remove, r, first :: (drained.dropLast ++ [last])⟩]⟩

def replace? (d : TextDocument) (range : Range) (text : List Char) : Option Edit := do
  let removed ← d.remove? range
  let inserted ← removed.doc.insert? removed.position text
  some {inserted with deltas := removed.deltas ++ inserted.deltas}

def setValue? (d : TextDocument) (text : List Char) : Option Edit := do
  let stop ← d.endPosition?
  let removed ← d.remove? (.ofPoints .origin stop)
  let inserted ← removed.doc.insert? .origin text
  some {inserted with deltas := removed.deltas ++ inserted.deltas}

def applyDelta? (d : TextDocument) (delta : Delta) : Option Edit :=
  match delta.action with
  | .insert => d.insert? delta.range.start (Text.joinLines delta.lines)
  | .remove => d.remove? delta.range

variable {d : TextDocument}

/-! ### Nothing goes wrong -/

theorem getElem?_lines {row : Nat} (h : row < d.lines.length) : d.lines[row]? = some (d.line row) := by
  rw [List.getElem?_eq_getElem h, line, lineAt, List.getD_eq_getElem?_getD,
    List.getElem?_eq_getElem h, Option.getD_some]

theorem endPosition?_eq (h : d.lines ≠ []) : d.endPosition? = some d.endPosition := by
  have hlen := List.length_pos_iff.2 h
  rw [endPosition?, Text.minus?_eq hlen]
  simp only [Option.bind_eq_bind, Option.bind_some, getElem?_lines (Nat.sub_lt hlen Nat.one_pos)]
  rfl

theorem clamp?_eq (h : d.lines ≠ []) (p : Position) : d.clamp? p = some (d.clamp p) := by
  rw [clamp?, clamp]
  split
  · exact endPosition?_eq h
  · next hrow =>
    simp only [getElem?_lines (Nat.lt_of_not_ge hrow), Option.bind_eq_bind, Option.bind_some,
      Text.floorColumn?_eq]

theorem weave_rows (left right first : Line) (rows : List Line) (last : Line) :
    weave left right (first :: (rows ++ [last])) = (left ++ first) :: (rows ++ [last ++ right]) := by
  induction rows generalizing left first with
  | nil => rfl
  | cons row rows ih =>
    rw [weave, List.cons_append, ih]
    · rfl
    · simp

theorem behindPieces_rows (start : Position) (first : Line) (rows : List Line) (last : Line) :
    behindPieces start (first :: (rows ++ [last])) =
      ⟨start.row + (rows.length + 1), Text.width last⟩ := by
  induction rows generalizing start first with
  | nil => simp [behindPieces]
  | cons row rows ih =>
    rw [behindPieces, List.cons_append, ih, List.length_cons, Nat.add_right_comm, Nat.add_assoc]
    simp

theorem insert?_eq (h : d.lines ≠ []) (p : Position) (text : List Char) :
    d.insert? p text = some (d.insert p text) := by
  obtain ⟨c, hc, hp⟩ := exists_cut_clamp h p
  rw [insert?, clamp?_eq h, insert]
  simp only [Option.bind_eq_bind, Option.bind_some, line]
  split
  · rfl
  · rw [← hp, ← hc, c.getElem?_lines, c.before_lines, c.after_lines, c.take_lines, c.drop_lines]
    simp only [Option.bind_some, c.cut?_row, c.set_lines]
    cases hpieces : Text.splitLines text with
    | nil => exact absurd hpieces (Text.splitLines_ne_nil text)
    | cons first more =>
      rcases List.eq_nil_or_concat more with rfl | ⟨rows, last, hmore⟩
      · simp [weave, behindPieces]
      · rw [List.concat_eq_append] at hmore
        subst hmore
        have hmany : ¬(first :: (rows ++ [last])).length = 1 := by simp
        have hdrain : drain? 0 1 (first :: (rows ++ [last])) = some ([first], rows ++ [last]) := by
          simp [drain?]
        have hlength : (rows ++ [last]).length = rows.length + 1 := List.length_append
        have hminus : Text.minus? (rows.length + 1) 1 = some rows.length :=
          Text.minus?_eq (Nat.le_add_left _ _)
        have hset (line : Line) : (rows ++ [last]).set rows.length line = rows ++ [line] := by simp
        simp only [if_neg hmany, hdrain, hlength, hminus, hset, List.getElem?_cons_zero,
          List.getElem?_concat_length, Option.bind_some, c.splice?_below, weave_rows,
          behindPieces_rows, List.append_assoc, List.cons_append]

theorem remove?_eq (h : d.lines ≠ []) (range : Range) : d.remove? range = some (d.remove range) := by
  obtain ⟨c, e, hc, he, hrange, hle, -, -⟩ := exists_cuts h range
  have hlines := hc.trans he.symm
  rw [remove_eq_cut hc he hrange, remove?, clamp?_eq h, clamp?_eq h]
  unfold clampRange at hrange
  simp only [Option.bind_eq_bind, Option.bind_some, hrange]
  split
  · next hr =>
    obtain rfl := Cut.ext_position hlines (eq_of_beq hr)
    exact congrArg some (congrArg (Edit.mk · _ _) (congrArg (TextDocument.mk · _ _) hc.symm))
  · rcases Cut.cases_of_le hlines hle with ⟨m, habove, hleft, hright⟩ | ⟨rows, habove, -⟩
    · have hrow : c.position.row = e.position.row := congrArg List.length habove
      have hsame : c.left ++ c.right = e.left ++ e.right := by
        rw [hleft, hright, List.append_assoc]
      have hbelow : c.below = e.below := by rw [← c.drop_lines, hlines, hrow, e.drop_lines]
      have hpieces := Cut.piecesBetween_beside habove hleft hright
      rw [hc] at hpieces
      rw [if_pos hrow, ← hc, c.getElem?_lines, hc, hpieces]
      simp only [Cut.slice?_beside hleft hright, c.cut?_row, Option.bind_some]
      rw [hsame, e.cut?_row, Option.bind_some, ← hc, c.set_lines, hbelow]
      rfl
    · have hlt := Cut.row_lt_of_below habove
      have hdrain := Cut.drain?_below hlines habove
      have hpieces := Cut.piecesBetween_below hlines habove
      rw [hc] at hdrain hpieces
      have hget : (c.above ++ (c.left ++ c.right) :: e.below)[c.position.row]? =
          some (c.left ++ c.right) := Cut.getElem?_lines ⟨c.above, c.left, c.right, e.below⟩
      have hset : (c.above ++ (c.left ++ c.right) :: e.below).set c.position.row (c.left ++ e.right) =
          c.above ++ (c.left ++ e.right) :: e.below :=
        Cut.set_lines ⟨c.above, c.left, c.right, e.below⟩ _
      rw [if_neg (Nat.ne_of_lt hlt), Text.minus?_eq (Nat.le_of_lt hlt), ← hc, c.getElem?_lines, hc,
        hdrain, hpieces]
      simp only [c.cut?_row, e.cut?_row, List.getLast?_concat, List.dropLast_concat, Option.getD_some,
        hget, hset, Option.bind_some]
      rfl

theorem replace?_eq (h : d.lines ≠ []) (range : Range) (text : List Char) :
    d.replace? range text = some (d.replace range text) := by
  rw [replace?, remove?_eq h, Option.bind_eq_bind, Option.bind_some,
    insert?_eq (remove_lines_ne_nil h range)]
  rfl

theorem setValue?_eq (h : d.lines ≠ []) (text : List Char) :
    d.setValue? text = some (d.setValue text) := by
  rw [setValue?, endPosition?_eq h, Option.bind_eq_bind, Option.bind_some, remove?_eq h,
    Option.bind_eq_bind, Option.bind_some, insert?_eq (remove_lines_ne_nil h _)]
  rfl

theorem applyDelta?_eq (h : d.lines ≠ []) (delta : Delta) :
    d.applyDelta? delta = some (d.applyDelta delta) := by
  obtain ⟨action, range, lines⟩ := delta
  cases action with
  | insert => exact insert?_eq h _ _
  | remove => exact remove?_eq h range

end TextDocument

/-! ### Documents in use -/

variable {d : TextDocument}

def Revision.make? (d : TextDocument) : Revision → Option Edit
  | insert p text => d.insert? p text
  | remove range => d.remove? range
  | replace range text => d.replace? range text
  | setValue text => d.setValue? text
  | applyDelta delta => d.applyDelta? delta

def Operation.perform? (d : TextDocument) : Operation → Option TextDocument
  | revise r => (r.make? d).map Edit.doc
  | listen => some d.listen.1
  | unlisten listener => some (d.unlisten listener).1

def TextDocument.use? (d : TextDocument) (ops : List Operation) : Option TextDocument :=
  ops.foldlM Operation.perform? d

theorem Revision.make?_eq (h : d.lines ≠ []) (r : Revision) : r.make? d = some (r.make d) := by
  cases r with
  | insert p text => exact TextDocument.insert?_eq h p text
  | remove range => exact TextDocument.remove?_eq h range
  | replace range text => exact TextDocument.replace?_eq h range text
  | setValue text => exact TextDocument.setValue?_eq h text
  | applyDelta delta => exact TextDocument.applyDelta?_eq h delta

theorem Operation.perform?_eq (h : d.lines ≠ []) (op : Operation) :
    op.perform? d = some (op.perform d) := by
  cases op with
  | revise r => rw [perform?, Revision.make?_eq h, Option.map_some, perform]
  | listen => rfl
  | unlisten listener => rfl

theorem TextDocument.use?_eq (h : d.WellFormed) (ops : List Operation) :
    d.use? ops = some (d.use ops) := by
  induction ops generalizing d with
  | nil => rfl
  | cons op ops ih =>
    rw [use?, List.foldlM_cons, Operation.perform?_eq h.nonempty, Option.bind_eq_bind,
      Option.bind_some]
    exact ih (wellFormed_perform h op)

/-! ### Bracket partners -/

/-- The first cell that balances `depth` open brackets, counting down with care. -/
def seekPartner? (same partner : Char) : Nat → List Cell → Option (Option Position)
  | _, [] => some none
  | depth, cell :: cells =>
    if cell.char = same then seekPartner? same partner (depth + 1) cells
    else if cell.char = partner then do
      let left ← Text.minus? depth 1
      if left = 0 then some (some cell.at_) else seekPartner? same partner left cells
    else seekPartner? same partner depth cells

def cellsBehind? (lines : List Line) (p : Position) : Option (List Cell) :=
  match lines.drop p.row with
  | [] => some []
  | line :: more => do
    let column ← Text.floorColumn? p.column line
    let (_, rest) ← Text.cut? column line
    some (cellsOf p.row column rest ++ cellsFrom (p.row + 1) more)

def cellsBefore? (lines : List Line) (p : Position) : Option (List Cell) := do
  let line := lineAt lines p.row
  let column ← Text.floorColumn? p.column line
  let (front, _) ← Text.cut? column line
  some (cellsFrom 0 (lines.take p.row) ++ cellsOf p.row 0 front).reverse

def findCloser? (lines : List Line) (opener : Char) (p : Position) : Option (Option Position) :=
  match closerOf? opener with
  | none => some none
  | some closer => do
    let cells ← cellsBehind? lines p
    seekPartner? opener closer 1 cells

def findOpener? (lines : List Line) (closer : Char) (p : Position) : Option (Option Position) :=
  match openerOf? closer with
  | none => some none
  | some opener => do
    let cells ← cellsBefore? lines ⟨p.row, p.column - 1⟩
    seekPartner? closer opener 1 cells

def findPartner? (lines : List Line) (p : Position) : Option (Option Position) := do
  let line := lineAt lines p.row
  let column ← Text.floorColumn? p.column line
  let (front, _) ← Text.cut? column line
  match front.getLast? with
  | none => some none
  | some c =>
    if (closerOf? c).isSome then findCloser? lines c p
    else if (openerOf? c).isSome then findOpener? lines c p
    else some none

/-- Brackets that are open are at least one. -/
theorem seekPartner?_eq (same partner : Char) {depth : Nat} (h : 0 < depth) (cells : List Cell) :
    seekPartner? same partner depth cells = some (seekPartner same partner depth cells) := by
  induction cells generalizing depth with
  | nil => rfl
  | cons cell cells ih =>
    rw [seekPartner?, seekPartner]
    split
    · exact ih (Nat.succ_pos depth)
    · split
      · rw [Text.minus?_eq h, Option.bind_eq_bind, Option.bind_some]
        by_cases hlast : depth ≤ 1
        · rw [if_pos (Nat.sub_eq_zero_of_le hlast), if_pos hlast]
        · rw [if_neg (by omega), if_neg hlast]
          exact ih (by omega)
      · exact ih h

theorem findCloser?_eq (lines : List Line) (opener : Char) (p : Position) :
    findCloser? lines opener p = some (findCloser lines opener p) := by
  rw [findCloser?, findCloser]
  split
  · next h => rw [h, Option.bind_none]
  · next closer h =>
    have hcells : cellsBehind? lines p = some (cellsBehind lines p) := by
      rw [cellsBehind?, cellsBehind]
      cases lines.drop p.row with
      | nil => rfl
      | cons line more =>
        simp only [Text.floorColumn?_eq, Text.cut?_floorColumn, Option.bind_eq_bind, Option.bind_some]
    rw [hcells, h, Option.bind_some, Option.bind_eq_bind, Option.bind_some,
      seekPartner?_eq _ _ Nat.one_pos]

theorem findOpener?_eq (lines : List Line) (closer : Char) (p : Position) :
    findOpener? lines closer p = some (findOpener lines closer p) := by
  rw [findOpener?, findOpener]
  split
  · next h => rw [h, Option.bind_none]
  · next opener h =>
    have hcells (q : Position) : cellsBefore? lines q = some (cellsBefore lines q) := by
      simp only [cellsBefore?, cellsBefore, Text.floorColumn?_eq, Text.cut?_floorColumn,
        Option.bind_eq_bind, Option.bind_some]
    rw [hcells, h, Option.bind_some, Option.bind_eq_bind, Option.bind_some,
      seekPartner?_eq _ _ Nat.one_pos]

/-- Looking for a partner goes well in any lines, from any position. -/
theorem findPartner?_eq (lines : List Line) (p : Position) :
    findPartner? lines p = some (findPartner lines p) := by
  simp only [findPartner?, findPartner, Text.floorColumn?_eq, Text.cut?_floorColumn,
    Option.bind_eq_bind, Option.bind_some]
  cases (Text.before p.column (lineAt lines p.row)).getLast? with
  | none => rfl
  | some c =>
    dsimp only
    split
    · exact findCloser?_eq lines c p
    · split
      · exact findOpener?_eq lines c p
      · rfl

end CodeEditing.Document
