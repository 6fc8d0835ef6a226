import CodeEditing.Document.Indent
import CodeEditing.Document.Position
import CodeEditing.Json.Shape

/-! Changes of a text, as they are told to those who follow it, and their JSON form. -/
namespace CodeEditing.Document

open Json (Decoder Field Record Value)

inductive Action where
  | insert
  | remove
  deriving Repr, DecidableEq

/-- One change: the range that was filled or emptied, and the lines put in or taken out. -/
structure Delta where
  action : Action
  range : Range
  lines : List Line
  deriving Repr, DecidableEq

/-! ### JSON form -/

def Action.name : Action → String
  | insert => "insert"
  | remove => "remove"

def Action.decode : Decoder Action := .oneOf [("insert", insert), ("remove", remove)]

def Position.record : Record Position :=
  ⟨"struct Position", .origin,
    [.needed "row" (.aSize) fun n p => {p with row := n},
      .needed "column" (.aSize) fun n p => {p with column := n}]⟩

def Position.toJson (p : Position) : Value :=
  .object [("row", .ofNat p.row), ("column", .ofNat p.column)]

def Range.record : Record Range :=
  ⟨"struct Range", ⟨.origin, .origin⟩,
    [.needed "start" Position.record.decode fun p r => {r with start := p},
      .needed "end" Position.record.decode fun p r => {r with stop := p}]⟩

def Range.toJson (r : Range) : Value :=
  .object [("start", r.start.toJson), ("end", r.stop.toJson)]

def Delta.record : Record Delta :=
  ⟨"struct Delta", ⟨.insert, ⟨.origin, .origin⟩, []⟩,
    [.needed "action" Action.decode fun a d => {d with action := a},
      .needed "range" Range.record.decode fun r d => {d with range := r},
      .needed "lines" (.list .aString) fun ls d => {d with lines := ls.map String.toList}]⟩

def Delta.toJson (d : Delta) : Value :=
  .object [("action", .string d.action.name), ("range", d.range.toJson),
    ("lines", .ofStrings (d.lines.map String.ofList))]

end CodeEditing.Document
