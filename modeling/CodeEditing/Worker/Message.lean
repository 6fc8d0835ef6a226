import CodeEditing.Document.Delta
import CodeEditing.Json.Shape
import CodeEditing.Worker.Config

/-! What a host and its worker tell each other, and the JSON form of it.

The three messages of a host are told apart by their shape: the members decide which one an object
is, and an object that could be several is the first of them. The messages of a worker carry a tag.
-/
namespace CodeEditing.Worker

open Document (Delta)
open Json (Break Decoder Extent MemberKey Mismatch Node Origin Problem Record Value)
open Json.Decoder (flaw mismatch refuse)

/-- From host to worker: what to load, a command, or something that happened. -/
inductive HostMessage where
  | init (flag : Bool) (tlns : List (String × String)) (module classname : String)
  | command (name : String) (args : List Value)
  | event (name : String) (data : Value)
  deriving Repr, BEq, Inhabited

/-- From worker to host: a note for the log, something that happened, or the answer to a call. -/
inductive WorkerMessage where
  | log (data : Value)
  | event (name : String) (data : Value)
  | call (id : Nat) (data : Value)
  deriving Repr, BEq, Inhabited

namespace HostMessage

/-- Asks to load what the settings name. -/
def ofConfig (c : Config) : HostMessage := init true c.tlns c.module c.classname

/-- A command that is to be answered: its number comes behind the arguments. -/
def call (name : String) (args : List Value) (id : Nat) : HostMessage :=
  command name (args ++ [.ofNat id])

/-- Tells of a change of the document. -/
def change (d : Delta) : HostMessage := event "change" d.toJson.sorted

def toJson : HostMessage → Value
  | init flag tlns module classname =>
    .object [("init", .bool flag), ("tlns", Config.textByKeyToJson tlns),
      ("module", .string module), ("classname", .string classname)]
  | command name args => .object [("command", .string name), ("args", .array args)]
  | event name data => .object [("event", .string name), ("data", .object [("data", data)])]

/-! ### Decoding -/

structure InitFields where
  flag : Bool
  tlns : List (String × String)
  module : String
  classname : String

def initRecord : Record InitFields :=
  ⟨"init message", ⟨false, [], "", ""⟩,
    [.needed "init" .aBool fun b m => {m with flag := b},
      .optional "tlns" Config.textByKey fun ps m => {m with tlns := ps},
      .needed "module" .aString fun s m => {m with module := s},
      .needed "classname" .aString fun s m => {m with classname := s}]⟩

def commandRecord : Record (String × List Value) :=
  ⟨"command message", ("", []),
    [.needed "command" .aString fun s m => (s, m.2),
      .optional "args" (.list .any) fun vs m => (m.1, vs)]⟩

def dataRecord : Record Value :=
  ⟨"event data", .null, [.optional "data" .any fun v _ => v]⟩

def eventRecord : Record (String × Value) :=
  ⟨"event message", ("", .null),
    [.needed "event" .aString fun s m => (s, m.2),
      .needed "data" dataRecord.decode fun v m => (m.1, v)]⟩

/-- The message an object without flaws is, if it is one. -/
def ofNode? (n : Node) : Option HostMessage :=
  match initRecord.ofObject .kept n with
  | .ok m => some (init m.flag m.tlns m.module m.classname)
  | .error _ =>
    match commandRecord.ofObject .kept n with
    | .ok (name, args) => some (command name args)
    | .error _ =>
      match eventRecord.ofObject .kept n with
      | .ok (name, data) => some (event name data)
      | .error _ => none

/-- A text is taken over as a whole first, so a flaw anywhere in it comes before its shape. -/
def decode : Decoder HostMessage := fun _ n =>
  match n.value Node.maxDepth with
  | .error f => flaw f
  | .ok _ =>
    match ofNode? n with
    | some m => .ok m
    | none => .error (.mismatch (.noVariant "HostMessage") none)

end HostMessage

namespace WorkerMessage

/-- A note in words. -/
def note (text : String) : WorkerMessage := log (.string text)

def toJson : WorkerMessage → Value
  | log data => .object [("type", .string "log"), ("data", data)]
  | event name data =>
    .object [("type", .string "event"), ("name", .string name), ("data", data)]
  | call id data => .object [("type", .string "call"), ("id", .ofNat id), ("data", data)]

/-! ### Decoding -/

inductive Tag where
  | log
  | event
  | call

def Tag.known : List (String × Tag) := [("log", .log), ("event", .event), ("call", .call)]

def logRecord : Record Value :=
  ⟨"struct variant WorkerMessage::Log", .null, [.optional "data" .any fun v _ => v]⟩

def eventRecord : Record (String × Value) :=
  ⟨"struct variant WorkerMessage::Event", ("", .null),
    [.needed "name" .aString fun s m => (s, m.2), .optional "data" .any fun v m => (m.1, v)]⟩

def callRecord : Record (Nat × Value) :=
  ⟨"struct variant WorkerMessage::Call", (0, .null),
    [.needed "id" (.natural "u64") fun n m => (n, m.2), .optional "data" .any fun v m => (m.1, v)]⟩

/-- What comes with a tag. -/
def decodeTagged (tag : Tag) (n : Node) : Except Problem WorkerMessage :=
  match tag with
  | .log => (logRecord.decode .kept n).map log
  | .event => (eventRecord.decode .kept n).map fun (name, data) => event name data
  | .call => (callRecord.decode .kept n).map fun (id, data) => call id data

def decodeTag : Decoder Tag
  | origin, .string p (.ok s) => Decoder.variant Tag.known origin s p.stop
  | origin, n => refuse origin "variant identifier" n

/-- A value beside the tag is taken over before its shape is known; it lies one level deep. -/
def takeOver (n : Node) : Except Problem Unit :=
  match n.value (Node.maxDepth - 1) with
  | .error f => flaw f
  | .ok _ => .ok ()

/-- The tag among the members of an object, which has the given place, and the other members. -/
def splitMembers (origin : Origin) (place : Extent) (ending : Option Break) :
    Option Tag → List (MemberKey × Node) → Except Problem (Tag × List (MemberKey × Node))
  | tag, [] =>
    match ending, tag with
    | some b, _ => flaw b.taking
    | none, some t => .ok (t, [])
    | none, none => mismatch origin (.missingField "type") place.stop
  | tag, (k, n) :: more =>
    match k.text with
    | .error f => flaw f
    | .ok name =>
      if name = "type" then
        if tag.isSome then mismatch origin (.repeatedField "type") k.givenUp
        else
          match k.colon with
          | some f => flaw f
          | none =>
            match decodeTag origin n with
            | .error e => .error e
            | .ok t => splitMembers origin place ending (some t) more
      else
        match k.colon with
        | some f => flaw f
        | none =>
          match takeOver n with
          | .error e => .error e
          | .ok () =>
            (splitMembers origin place ending tag more).map fun (t, kept) => (t, (k, n) :: kept)

/-- Takes over every value of a list. -/
def takeOverAll (ending : Option Break) : List Node → Except Problem Unit
  | [] =>
    match ending with
    | some b => flaw b.taking
    | none => .ok ()
  | n :: ns =>
    match takeOver n with
    | .error e => .error e
    | .ok () => takeOverAll ending ns

/-- An object with the tag among its members, or a list with the tag in front. -/
def decode : Decoder WorkerMessage
  | origin, .object place members ending =>
    match splitMembers origin place ending none members with
    | .error e => .error e
    | .ok (tag, kept) => decodeTagged tag (.object place kept none)
  | origin, .array place items ending =>
    match items with
    | [] =>
      match ending with
      | some b => flaw b.taking
      | none => mismatch origin (.missingField "type") place.stop
    | first :: more =>
      match decodeTag origin first with
      | .error e => .error e
      | .ok tag =>
        match takeOverAll ending more with
        | .error e => .error e
        | .ok () => decodeTagged tag (.array place more none)
  | origin, n => refuse origin "internally tagged enum WorkerMessage" n

end WorkerMessage

end CodeEditing.Worker
