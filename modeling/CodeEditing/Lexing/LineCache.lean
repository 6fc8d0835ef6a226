import CodeEditing.Lexing.Scan

/-! Tokens of a whole text, kept while it is edited.

A `LineCache` holds for every row its tokens and the state they were scanned from, or nothing when
the row is new. `splice` makes room for an edit; `update` scans what has to be scanned again: it
starts at the first row without tokens and stops after the last one, as soon as the next row was
scanned from the state now reached. -/
namespace CodeEditing.Lexing

/-- The tokens of a row and the state they were scanned from. -/
structure CachedRow where
  start : StateId
  row : Row
  deriving Repr, DecidableEq

structure LineCache where
  tokenizer : Tokenizer
  rows : List (Option CachedRow)

namespace LineCache

def ofTokenizer (t : Tokenizer) : LineCache := ⟨t, []⟩

def size (c : LineCache) : Nat := c.rows.length

/-- The tokens of a row, if it has been scanned. -/
def row? (c : LineCache) (row : Nat) : Option Row := (c.rows[row]?.join).map (·.row)

/-- The state a row starts in, if the row before has been scanned. -/
def startState? (c : LineCache) (row : Nat) : Option StateId :=
  match row with
  | 0 => some .start
  | r + 1 => (c.row? r).map (·.endState)

/-- Puts `inserted` new rows in the place of `removed` rows from `row` on. -/
def splice (c : LineCache) (row removed inserted : Nat) : LineCache :=
  {c with
    rows := c.rows.take row ++ List.replicate inserted none ++ c.rows.drop (row + removed)}

/-- Cuts or fills up the rows to a number of lines. -/
def resize (rows : List (Option CachedRow)) (n : Nat) : List (Option CachedRow) :=
  rows.take n ++ List.replicate (n - rows.length) none

/-- The last row that has not been scanned. -/
def lastNew? (rows : List (Option CachedRow)) : Option Nat :=
  (rows.reverse.findIdx? (·.isNone)).map (rows.length - 1 - ·)

/-- Whether the first of the rows was scanned from a state. -/
def startsFrom (state : StateId) : List (Option CachedRow) → Bool
  | some next :: _ => next.start == state
  | _ => false

/-- Scans rows from `row` on, the first from `state`, up to the first row beyond `last` that was
scanned from the state now reached. Gives the rows and the row it stopped at. -/
def refill (t : Tokenizer) (last : Nat) (row : Nat) (state : StateId) :
    List (Option CachedRow) → List (List Char) → List (Option CachedRow) × Nat
  | _ :: cached, line :: lines =>
    let found := t.tokenize state line
    if row + 1 > last && startsFrom found.endState cached then (some ⟨state, found⟩ :: cached, row + 1)
    else
      let (more, stop) := refill t last (row + 1) found.endState cached lines
      (some ⟨state, found⟩ :: more, stop)
  | cached, _ => (cached, row)

/-- Brings the rows up to date with the lines of a text, taking `firstDirty` for edited. Gives the
first row that was scanned and the row behind the last one. -/
def update (c : LineCache) (lines : List (List Char)) (firstDirty : Nat) :
    LineCache × Nat × Nat :=
  let rows := resize c.rows lines.length
  if lines.isEmpty then ({c with rows := rows}, 0, 0)
  else
    let dirty := min firstDirty (lines.length - 1)
    let cleared : LineCache := {c with rows := rows.set dirty none}
    let first := (cleared.rows.findIdx? (·.isNone)).getD dirty
    let last := (lastNew? cleared.rows).getD dirty
    let state := (cleared.startState? first).getD .start
    let (more, stop) :=
      refill c.tokenizer last first state (cleared.rows.drop first) (lines.drop first)
    ({c with rows := cleared.rows.take first ++ more}, first, stop)

end LineCache

end CodeEditing.Lexing
