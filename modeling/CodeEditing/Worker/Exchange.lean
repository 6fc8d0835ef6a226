import CodeEditing.Worker.Analysis
import CodeEditing.Worker.Host

/-! A host and its worker, with what is under way between them.

Messages of the host wait until the worker handles them, and what the worker sends waits at the
client until it is pumped; nothing overtakes anything on its way. The remarks shown are those of the
last effect that says so. -/
namespace CodeEditing.Worker

open Document (Remark)

/-- The messages among effects. -/
def posts (effects : List Effect) : List HostMessage :=
  effects.filterMap fun
    | .post m => some m
    | _ => none

/-- The remarks shown after an effect. -/
def shown (remarks : List Remark) : Effect → List Remark
  | .annotate new => new
  | _ => remarks

/-- A host, a worker, the messages the worker has not handled yet, and the remarks shown. -/
structure Exchange (σ : Type) where
  host : Host
  worker : Follower σ
  waiting : List HostMessage
  remarks : List Remark

namespace Exchange

/-- A host and a worker that have not heard of each other. -/
def ofHost (a : Analysis σ) (host : Host) : Exchange σ := ⟨host, a.follower, [], []⟩

/-- The host has done something. -/
def after (x : Exchange σ) (host : Host) (effects : List Effect) : Exchange σ :=
  {x with
    host
    waiting := x.waiting ++ posts effects
    remarks := effects.foldl shown x.remarks}

/-- Whether the worker is heard: both ends of the link are held. -/
def isHeard (x : Exchange σ) : Bool := (x.host.client.link.map Link.farEnd).getD false

/-- The worker sends something to the client, if it is heard. -/
def tell (x : Exchange σ) (o : Output) : Exchange σ :=
  if x.isHeard then {x with host := {x.host with client := x.host.client.receive o}} else x

/-- The worker has done something. -/
def afterTurn (x : Exchange σ) (t : Turn σ) : Exchange σ :=
  (t.sent.map Output.message).foldl tell {x with worker := t.follower}

/-- The worker handles the next message. -/
def workNext (a : Analysis σ) (x : Exchange σ) : Exchange σ :=
  match x.waiting with
  | [] => x
  | m :: ms => {x with waiting := ms}.afterTurn (x.worker.handle a m)

/-- The worker looks at its copy of the document. -/
def finish (a : Analysis σ) (x : Exchange σ) : Exchange σ := x.afterTurn (x.worker.finish a)

/-- The worker handles all that waits, as one burst. -/
def work (a : Analysis σ) (x : Exchange σ) : Exchange σ × Turn σ :=
  let t := x.worker.burst a x.waiting
  ({x with waiting := []}.afterTurn t, t)

end Exchange

end CodeEditing.Worker
