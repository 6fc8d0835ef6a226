import CodeEditing.Document.Basic
import CodeEditing.Worker.Message

/-! Workers: they keep a copy of their host's document and analyse it.

A worker handles the messages of its host one by one, in bursts of those that wait together, and its
analysis looks at the copy once behind every burst that changed it. A `Turn` is a worker after some
of this, with what it has sent and what it warns of; turns come one after the other by
`Turn.andThen`, and `handleAll_append` says that messages may be handled in parts. -/
namespace CodeEditing.Worker

open Document (Delta TextDocument)
open Json (Value)

/-- The answer to a command that is not known. -/
def unknownCommand (name : String) : WorkerMessage :=
  .note s!"unknown command {Text.quotedName name}"

/-- An analysis with a state of its own. `isCall` tells which commands are answered: they carry a
number behind their arguments, and what `command` gives goes back with it. `update` looks at a
document that has changed. -/
structure Analysis (σ : Type) where
  start : σ
  init : σ → (module classname : String) → (tlns : List (String × String)) →
    σ × List WorkerMessage := fun s _ _ _ => (s, [])
  isCall : String → Bool := fun _ => false
  command : σ → TextDocument → (name : String) → (args : List Value) →
    σ × Value × List WorkerMessage := fun s _ name _ => (s, .null, [unknownCommand name])
  update : σ → TextDocument → σ × List WorkerMessage

/-- A worker that follows its host: the state of its analysis, its copy of the document, and whether
the copy has changed since it was looked at. -/
structure Follower (σ : Type) where
  state : σ
  doc : TextDocument
  dirty : Bool

/-- A worker that has not handled anything yet. -/
def Analysis.follower (a : Analysis σ) : Follower σ := ⟨a.start, .ofText [], false⟩

/-- A worker after some work, what it has sent and what it warns of, in order. -/
structure Turn (σ : Type) where
  follower : Follower σ
  sent : List WorkerMessage
  warnings : List String

namespace Turn

/-- A worker that sends messages. -/
def send (w : Follower σ) (sent : List WorkerMessage) : Turn σ := ⟨w, sent, []⟩

/-- One piece of work behind another. -/
def andThen (t : Turn σ) (f : Follower σ → Turn σ) : Turn σ :=
  let u := f t.follower
  ⟨u.follower, t.sent ++ u.sent, t.warnings ++ u.warnings⟩

theorem andThen_assoc (t : Turn σ) (f g : Follower σ → Turn σ) :
    (t.andThen f).andThen g = t.andThen fun w => (f w).andThen g := by
  simp [andThen]

@[simp] theorem andThen_send_nil (t : Turn σ) : (t.andThen fun w => send w []) = t := by
  simp [andThen, send]

@[simp] theorem send_nil_andThen (w : Follower σ) (f : Follower σ → Turn σ) :
    (send w []).andThen f = f w := by
  simp [andThen, send]

end Turn

namespace Follower

/-! ### Messages -/

/-- The text a host gives for the document; anything but a string stands for no text. -/
def textOf (args : List Value) : List Char :=
  match args.head? with
  | some (.string s) => s.toList
  | _ => []

/-- The number of a call, if it was sent as one. -/
def setValueCall? : List Value → Option Nat
  | [_, id] => id.nat?
  | _ => none

/-- Takes over a text. -/
def setValue (w : Follower σ) (args : List Value) : Turn σ :=
  .send {w with doc := (w.doc.setValue (textOf args)).doc, dirty := true}
    ((setValueCall? args).toList.map fun id => .call id .null)

/-- Makes a change told by the host. -/
def change (w : Follower σ) (data : Value) : Turn σ :=
  match Json.decodeValue Delta.record.decode data with
  | .ok delta => .send {w with doc := (w.doc.applyDelta delta).doc, dirty := true} []
  | .error e => .send w [.note s!"ignoring malformed change: {e.message []}"]

/-- Carries a command out. A call is answered under the number behind its arguments; without one it
is dropped with a warning. -/
def command (a : Analysis σ) (w : Follower σ) (name : String) (args : List Value) : Turn σ :=
  if a.isCall name then
    match args.getLast?.bind Value.nat? with
    | none => ⟨w, [], [s!"call {Text.quotedName name} arrived without a callback id"]⟩
    | some id =>
      let (state, answer, sent) := a.command w.state w.doc name args.dropLast
      .send {w with state} (sent ++ [.call id answer])
  else
    let (state, _, sent) := a.command w.state w.doc name args
    .send {w with state} sent

/-- Handles a message. Events other than a change of the document are passed over. -/
def handle (a : Analysis σ) (w : Follower σ) : HostMessage → Turn σ
  | .init _ tlns module classname =>
    let (state, sent) := a.init w.state module classname tlns
    .send {w with state} sent
  | .command name args => if name = "setValue" then w.setValue args else w.command a name args
  | .event name data => if name = "change" then w.change data else .send w []

/-! ### Bursts -/

/-- Looks at the copy if it has changed. -/
def finish (a : Analysis σ) (w : Follower σ) : Turn σ :=
  if w.dirty then
    let (state, sent) := a.update w.state w.doc
    .send {w with state, dirty := false} sent
  else .send w []

/-- Handles messages in turn. -/
def handleAll (a : Analysis σ) (w : Follower σ) : List HostMessage → Turn σ
  | [] => .send w []
  | h :: hs => (w.handle a h).andThen fun w => w.handleAll a hs

/-- Handles the messages that wait together, then looks at the copy. -/
def burst (a : Analysis σ) (w : Follower σ) (hs : List HostMessage) : Turn σ :=
  (w.handleAll a hs).andThen (finish a)

/-- Handles bursts in turn. -/
def bursts (a : Analysis σ) (w : Follower σ) : List (List HostMessage) → Turn σ
  | [] => .send w []
  | hs :: more => (w.burst a hs).andThen fun w => w.bursts a more

theorem handleAll_append (a : Analysis σ) (w : Follower σ) (hs ks : List HostMessage) :
    w.handleAll a (hs ++ ks) = (w.handleAll a hs).andThen fun w => w.handleAll a ks := by
  induction hs generalizing w with
  | nil => simp [handleAll]
  | cons h hs ih => simp only [List.cons_append, handleAll, Turn.andThen_assoc, ih]

end Follower

end CodeEditing.Worker
