import CodeEditing.Document.Remark
import CodeEditing.Document.Delta
import CodeEditing.Text.Quoted
import CodeEditing.Worker.Message

/-! Clients: the host's side of a worker.

A client starts one worker, tells it of the document attached, and takes what comes back: notes for
the log, events for those who subscribed to them, and answers to calls. It is a state machine
(`Phase`): whatever it does beyond its own state it gives back as a list of effects, in order, so
that messages, log and subscribers are seen to get exactly those. A fault ends the link for good. -/
namespace CodeEditing.Worker

open Document (Remark Delta)
open Json (Value)

/-! ### Outcomes -/

/-- No worker yet; a worker without a document; a worker with one; given up; failed. -/
inductive Phase where
  | uninitialized
  | initializing
  | attached
  | terminated
  | faulted
  deriving Repr, DecidableEq

def Phase.name : Phase → String
  | uninitialized => "Uninitialized"
  | initializing => "Initializing"
  | attached => "Attached"
  | terminated => "Terminated"
  | faulted => "Faulted"

/-- Why an operation fails: the worker cannot be started, it fails now, it failed before, or the
operation has no place in the phase. -/
inductive Refusal where
  | spawn (program reason : String)
  | fault (reason : String)
  | faulted
  | misplaced (phase : Phase)
  deriving Repr, DecidableEq

def Refusal.message : Refusal → String
  | spawn program reason => s!"failed to start worker {Text.quotedName program}: {reason}"
  | fault reason => s!"worker fault: {reason}"
  | faulted => "worker client is faulted"
  | misplaced phase => s!"operation not valid while the worker client is {phase.name}"

/-- What comes from the worker: a message, word that it broke down, or its end. -/
inductive Output where
  | message (m : WorkerMessage)
  | fault (reason : String)
  | exited
  deriving Repr, BEq

/-- What listens to changes of a document: the document's name and its number for the listener. -/
structure Attachment where
  doc : String
  listener : Nat
  deriving Repr, DecidableEq

/-- What a client does beyond its own state. -/
inductive Effect where
  /-- A message goes to the worker. -/
  | post (m : HostMessage)
  /-- The next listener of a document is taken. -/
  | listen (doc : String)
  /-- A listener is given up. -/
  | release (a : Attachment)
  /-- A subscriber hears of an event. -/
  | heard (subscription : Nat) (data : Value)
  /-- Whoever made the call of a number gets the answer. -/
  | answered {number : Nat} (command : String) (data : Value)
  /-- The remarks to show are now these. -/
  | annotate (remarks : List Remark)
  | warning (text : String)
  | failure (text : String)
  /-- The worker's notes for the log. -/
  | remote (text : String)

/-! ### Clients -/

/-- The client's end of a link: what has come from the worker and waits, and whether the worker still
holds its end. -/
structure Link where
  inbox : List Output
  farEnd : Bool

/-- What a subscriber does with an event: it hears of it, or it marks or clears remarks. -/
inductive Handler where
  | hear
  | mark
  | clear
  deriving Repr, DecidableEq

structure Subscriber where
  number : Nat
  event : String
  handler : Handler
  deriving Repr, DecidableEq

/-- A client: its settings and phase, its end of the link, the number of the next call, the calls
that wait for an answer with their commands, the subscribers and the next number for one, and the
document attached. -/
structure Client where
  config : Config
  phase : Phase
  link : Option Link
  nextCall : Nat
  pending : List (Nat × String)
  subscribers : List Subscriber
  nextSubscriber : Nat
  attachment : Option Attachment

/-- A client after an operation, the result, and the effects in order. -/
structure Reaction (α : Type) where
  client : Client
  result : α
  effects : List Effect

/-- An operation that may fail. -/
abbrev Attempt (α : Type) := Reaction (Except Refusal α)

/-- Goes on where an operation has not failed. -/
def Attempt.andThen (r : Attempt α) (f : Client → α → Attempt β) : Attempt β :=
  match r.result with
  | .error e => ⟨r.client, .error e, r.effects⟩
  | .ok a =>
    let s := f r.client a
    {s with effects := r.effects ++ s.effects}

/-- What a subscriber does with an event. -/
def Subscriber.react (s : Subscriber) (data : Value) : Effect :=
  match s.handler with
  | .hear => .heard s.number data
  | .clear => .annotate []
  | .mark =>
    match Json.decodeValue Remark.record.decode data with
    | .ok a => .annotate [a]
    | .error e => .warning s!"malformed annotation from worker: {e.message []}"

namespace Client

def ofConfig (config : Config) : Client := ⟨config, .uninitialized, none, 1, [], [], 0, none⟩

/-! ### Coming to an end -/

/-- Gives the document up. The worker goes on. -/
def detach (c : Client) : Reaction Unit :=
  match c.attachment with
  | none => ⟨c, (), []⟩
  | some a =>
    let phase := if c.phase = .attached then .initializing else c.phase
    ⟨{c with attachment := none, phase}, (), [.release a]⟩

/-- Gives up the document, the calls that wait, and the link. -/
def shutDown (c : Client) : Reaction Unit :=
  let r := c.detach
  {r with client := {r.client with pending := [], link := none}}

/-- Fails. -/
def fail (c : Client) (reason : String) : Reaction Refusal :=
  let r := c.shutDown
  ⟨{r.client with phase := .faulted}, .fault reason,
    .failure (Refusal.fault reason).message :: r.effects⟩

/-- Fails in the course of an operation. -/
def failing (c : Client) (reason : String) : Attempt α :=
  let r := c.fail reason
  ⟨r.client, .error r.result, r.effects⟩

/-- What the subscribers of an event do, in the order in which they came. -/
def notify (c : Client) (event : String) (data : Value) : List Effect :=
  (c.subscribers.filter (·.event == event)).map (·.react data)

/-- Gives the worker up, after telling the subscribers of `terminate`. Doing so again changes
nothing. -/
def terminate (c : Client) : Reaction Unit :=
  if c.phase = .terminated then ⟨c, (), []⟩
  else
    let r := c.shutDown
    ⟨{r.client with phase := .terminated}, (), c.notify "terminate" (.object []) ++ r.effects⟩

/-! ### Telling the worker -/

/-- The link, while there is a worker to talk to. -/
def liveLink (c : Client) : Except Refusal Link :=
  match c.phase, c.link with
  | .initializing, some l | .attached, some l => .ok l
  | .faulted, _ => .error .faulted
  | phase, _ => .error (.misplaced phase)

/-- Sends a message. -/
def post (c : Client) (m : HostMessage) : Attempt Unit :=
  match c.liveLink with
  | .error e => ⟨c, .error e, []⟩
  | .ok l => if l.farEnd then ⟨c, .ok (), [.post m]⟩ else c.failing "worker channel closed"

/-- Sends a command that is not answered. -/
def send (c : Client) (command : String) (args : List Value) : Attempt Unit :=
  c.post (.command command args)

/-- Sends a command that is to be answered, and gives the number it goes under. -/
def call (c : Client) (command : String) (args : List Value) : Attempt Nat :=
  match c.liveLink with
  | .error e => ⟨c, .error e, []⟩
  | .ok _ =>
    let id := c.nextCall
    let c := {c with nextCall := id + 1, pending := c.pending ++ [(id, command)]}
    (c.post (.call command args id)).andThen fun c () => ⟨c, .ok id, []⟩

/-- Tells of an event. Data that cannot be written down is dropped with a warning. -/
def emit (c : Client) (event : String) (data : Except String Value) : Attempt Unit :=
  match data with
  | .ok data => c.post (.event event data)
  | .error e => ⟨c, .ok (), [.warning s!"dropping {Text.quotedName event} event: {e}"]⟩

/-! ### Starting -/

/-- Fails unless nothing has been started yet. -/
def expectFresh (c : Client) : Except Refusal Unit :=
  match c.phase with
  | .uninitialized => .ok ()
  | .faulted => .error .faulted
  | phase => .error (.misplaced phase)

/-- Takes over a link to a worker and asks it to load what the settings name. -/
def adopt (c : Client) (link : Link) : Attempt Unit :=
  match c.expectFresh with
  | .error e => ⟨c, .error e, []⟩
  | .ok () => post {c with link := some link, phase := .initializing} (.ofConfig c.config)

/-- Takes over the link to a worker that has sent nothing yet. -/
def connect (c : Client) : Attempt Unit := c.adopt ⟨[], true⟩

/-- Starts a worker; `started` is the link to it, or tells why it cannot be started. -/
def launch (c : Client) (started : Except String Link) : Attempt Unit :=
  match c.expectFresh with
  | .error e => ⟨c, .error e, []⟩
  | .ok () =>
    match started with
    | .ok link => c.adopt link
    | .error reason =>
      let e := Refusal.spawn c.config.program reason
      ⟨{c with phase := .faulted}, .error e, [.failure e.message]⟩

/-- Starts a worker that sends nothing at once. -/
def start (c : Client) (started : Except String Unit) : Attempt Unit :=
  c.launch (started.map fun () => ⟨[], true⟩)

/-! ### The document -/

/-- Attaches a document in the place of the one attached: sends its text and then listens. The
document will know the listener by the number given. -/
def attach (c : Client) (doc : String) (text : List Char) (listener : Nat) : Attempt Unit :=
  match c.liveLink with
  | .error e => ⟨c, .error e, []⟩
  | .ok _ =>
    let left := c.detach
    let sent := (left.client.send "setValue" [.string (String.ofList text)]).andThen fun c () =>
      ⟨{c with attachment := some ⟨doc, listener⟩, phase := .attached}, .ok (), [.listen doc]⟩
    {sent with effects := left.effects ++ sent.effects}

/-- Sends on a change that a listener of a document is told of. Nothing goes out unless it is the
listener of the document attached; nobody minds when the worker is gone. -/
def forward (c : Client) (doc : String) (listener : Nat) (delta : Delta) : List Effect :=
  if c.attachment = some ⟨doc, listener⟩ && (c.link.map Link.farEnd).getD false then
    [.post (.change delta)]
  else []

/-! ### Subscribers -/

/-- Adds a subscriber to an event, and gives its number. -/
def subscribe (c : Client) (event : String) (handler : Handler) : Reaction Nat :=
  ⟨{c with
      subscribers := c.subscribers ++ [⟨c.nextSubscriber, event, handler⟩]
      nextSubscriber := c.nextSubscriber + 1},
    c.nextSubscriber, []⟩

/-- Removes a subscriber, if it is one. -/
def unsubscribe (c : Client) (number : Nat) : Reaction Bool :=
  let left := c.subscribers.filter (·.number != number)
  ⟨{c with subscribers := left}, left.length != c.subscribers.length, []⟩

/-- Shows the remarks of `error` events until an `ok` event clears them. -/
def bindRemarks (c : Client) : Reaction (Nat × Nat) :=
  let marks := c.subscribe "error" .mark
  let clears := marks.client.subscribe "ok" .clear
  ⟨clears.client, (marks.result, clears.result), []⟩

/-! ### Listening to the worker -/

/-- The worker sends something. It waits until it is pumped, and is lost when nobody holds the
link. -/
def receive (c : Client) (o : Output) : Client :=
  {c with link := c.link.map fun l => {l with inbox := l.inbox ++ [o]}}

/-- The worker lets its end of the link go. -/
def loseWorker (c : Client) : Client :=
  {c with link := c.link.map fun l => {l with farEnd := false}}

/-- What a note for the log says: a string is taken as it is. -/
def noteText : Value → String
  | .string s => s
  | v => v.text

/-- Handles what has come from the worker. -/
def dispatch (c : Client) : Output → Attempt Unit
  | .message (.log data) => ⟨c, .ok (), [.remote (noteText data)]⟩
  | .message (.event name data) => ⟨c, .ok (), c.notify name data⟩
  | .message (.call id data) =>
    match c.pending.lookup id with
    | some command =>
      ⟨{c with pending := c.pending.filter (·.1 != id)}, .ok (), [@Effect.answered id command data]⟩
    | none => ⟨c, .ok (), []⟩
  | .fault reason => c.failing reason
  | .exited => c.failing "worker exited"

/-- Takes the next of what waits. -/
def taking (c : Client) (waiting : List Output) : Client :=
  {c with link := c.link.map fun l => {l with inbox := waiting}}

/-- Handles what waits, up to the first failure, and gives its number. When all is handled and the
worker has let its end go, the client fails. -/
def pumpAll (c : Client) (farEnd : Bool) (handled : Nat) : List Output → Attempt Nat
  | [] => if farEnd then ⟨c, .ok handled, []⟩ else c.failing "worker disconnected"
  | o :: waiting =>
    ((c.taking waiting).dispatch o).andThen fun c () => c.pumpAll farEnd (handled + 1) waiting

/-- Handles everything that waits. Without a worker there is nothing. -/
def pump (c : Client) : Attempt Nat :=
  if c.phase = .faulted then ⟨c, .error .faulted, []⟩
  else
    match c.link with
    | none => ⟨c, .ok 0, []⟩
    | some l => c.pumpAll l.farEnd 0 l.inbox

/-- Waits for something to come and then handles everything that waits; when nothing comes in time
there is nothing to do. -/
def pumpWaiting (c : Client) : Attempt Nat :=
  if c.phase = .faulted then ⟨c, .error .faulted, []⟩
  else
    match c.link with
    | none => ⟨c, .ok 0, []⟩
    | some l =>
      match l.inbox with
      | [] => if l.farEnd then ⟨c, .ok 0, []⟩ else c.failing "worker disconnected"
      | o :: waiting =>
        (((c.taking waiting).dispatch o).andThen fun c () => c.pump).andThen fun c n =>
          ⟨c, .ok (1 + n), []⟩

end Client

end CodeEditing.Worker
