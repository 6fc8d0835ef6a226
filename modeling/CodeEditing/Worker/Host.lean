import CodeEditing.Document.Basic
import CodeEditing.Worker.Client

/-! Hosts: documents, and a client that may have one of them attached.

Documents are known by name. The client listens to the document attached to it, and an edit of any
document is told to all who listen to it. A document that is being read when the client gives it up
keeps the listener, which then has nothing to say. -/
namespace CodeEditing.Worker

open Document (Edit Position TextDocument)

structure Host where
  client : Client
  docs : List (String × TextDocument)

namespace Host

def doc? (h : Host) (name : String) : Option TextDocument := h.docs.lookup name

/-- Puts a document in the place of the one that has its name. -/
def setDoc (h : Host) (name : String) (doc : TextDocument) : Host :=
  {h with docs := h.docs.map fun (n, d) => if n = name then (n, doc) else (n, d)}

/-- Lets a document go, if there is one of that name. -/
def dropDoc (h : Host) (name : String) : Host × Bool :=
  ({h with docs := h.docs.filter (·.1 != name)}, (h.doc? name).isSome)

/-- What an effect means for the documents. The listeners of the document `busy` stay. -/
def settle (busy : Option String) (h : Host) : Effect → Host
  | .listen name =>
    match h.doc? name with
    | some d => h.setDoc name d.listen.1
    | none => h
  | .release a =>
    match h.doc? a.doc with
    | some d => if busy = some a.doc then h else h.setDoc a.doc (d.unlisten a.listener).1
    | none => h
  | _ => h

/-- Lets the client do something, while the document `busy` is being read. -/
def act (h : Host) (f : Client → Reaction α) (busy : Option String := none) :
    Host × α × List Effect :=
  let r := f h.client
  (r.effects.foldl (settle busy) {h with client := r.client}, r.result, r.effects)

/-- Attaches a document to the client, while the document `busy` is being read. -/
def attach (h : Host) (name : String) (busy : Option String := none) :
    Host × Except Refusal Unit × List Effect :=
  match h.doc? name with
  | some d => h.act (·.attach name d.value d.nextListener) busy
  | none => (h, .ok (), [])

/-- Edits a document. -/
def edit (h : Host) (name : String) (f : TextDocument → Edit) :
    Host × Option Position × List Effect :=
  match h.doc? name with
  | some d =>
    let e := f d
    (h.setDoc name e.doc, some e.position,
      e.told.flatMap fun (listener, delta) => h.client.forward name listener delta)
  | none => (h, none, [])

/-- Gives the client up and takes a fresh one with the same settings. -/
def renew (h : Host) : Host × List Effect :=
  let (h', _, effects) := h.act Client.terminate
  ({h' with client := .ofConfig h.client.config}, effects)

end Host

end CodeEditing.Worker
