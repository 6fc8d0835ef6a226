import CodeEditing.Worker.Client
import CodeEditing.Worker.Frame
import CodeEditing.Worker.Linter

/-! Workers that talk in frames over streams of bytes.

A worker passes over messages that it cannot make out; a fault of the framing ends the conversation,
but what came before it is handled. A client takes no such message: to it the worker has failed. -/
namespace CodeEditing.Worker

/-! ### The worker's side -/

/-- The messages read before the framing goes wrong, and what is wrong if it does. -/
def untilFault : List (Except FrameFault α) × Option FrameFault → List α × Option FrameFault
  | ([], ending) => ([], ending)
  | (.ok a :: more, ending) =>
    let (rest, fault) := untilFault (more, ending)
    (a :: rest, fault)
  | (.error (.malformed _ _) :: more, ending) => untilFault (more, ending)
  | (.error f :: _, _) => ([], some f)

/-- The messages of a host in a stream, and what is wrong with the stream if anything is. -/
def hostMessages (input : List UInt8) : List HostMessage × Option FrameFault :=
  untilFault (readAll HostMessage.decode input)

/-- How a conversation ends: well, because the input is at fault, or because the other side no longer
takes what is written. -/
inductive Ending where
  | done
  | input (fault : FrameFault)
  | output

/-- Serves a host whose messages all wait together. The host takes at most `limit` messages. Gives
what was written. -/
def serve (a : Analysis σ) (limit : Option Nat) (input : List UInt8) : List UInt8 × Ending :=
  let (messages, fault) := hostMessages input
  let sent := (a.follower.burst a messages).sent
  let taken := match limit with
    | none => sent
    | some n => sent.take n
  let written := taken.flatMap fun m => frameOf m.toJson
  if taken.length < sent.length then (written, .output)
  else
    match fault with
    | some f => (written, .input f)
    | none => (written, .done)

/-! ### The client's side -/

/-- What a client makes of a fault. -/
def FrameFault.report : FrameFault → String
  | malformed body problem => s!"unparseable worker output: {problem.message body}"
  | f => f.message

/-- Whether a fault in `bytes`, with `rest` behind it, may still turn out to be none when more comes:
a body is not complete, or a line is not. -/
def FrameFault.isOpen (bytes rest : List UInt8) : FrameFault → Bool
  | cutShort => true
  | malformed _ _ => false
  | badLength _ | notText => rest.isEmpty && bytes.getLast? != some 10

/-- What comes from a worker that writes these bytes and then stops, or writes nothing for a while if
the stream stays open. Of a reader that dies nothing is heard. -/
def outputsIn (staysOpen : Bool) (bytes : List UInt8) : List Output :=
  match _h : bytes with
  | [] => if staysOpen then [] else [.exited]
  | b :: bs =>
    let rest := (next WorkerMessage.decode (b :: bs)).2
    match (next WorkerMessage.decode (b :: bs)).1 with
    | .ok none => if staysOpen then [] else [.exited]
    | .ok (some m) => .message m :: outputsIn staysOpen rest
    | .error f =>
      if f.isDeadly || staysOpen && f.isOpen (b :: bs) rest then [] else [.fault f.report]
termination_by bytes.length
decreasing_by exact next_shorter _ b bs

/-- A worker as its client sees it: what comes back for the messages sent. -/
abbrev Program := List HostMessage → List Output

/-- The worker that watches brackets. -/
def linterProgram : Program := fun messages =>
  (linter.follower.burst linter messages).sent.map .message

end CodeEditing.Worker
