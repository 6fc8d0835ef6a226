import CodeEditing.Proofs.Document.Forms
import CodeEditing.Proofs.Worker.Pumping
import CodeEditing.Proofs.Worker.Tended
import CodeEditing.Worker.Linter

/-! A worker's copy of the document.

A session is a host with its worker, whose steps (`Act`) come in any order: documents are attached,
given up and edited, other messages are sent, the worker handles what waits and looks at its copy,
and the client is pumped. For every message about the copy the session remembers the lines that the
document attached had just behind it (`Session.told`), and how many of these messages have been
handled.

`Session.copy_follows` says that the copy has the lines of the last message handled, and so those of
the document attached once nothing waits. The invariant is `Session.Follows`: what waits leads the
copy through the lines told to the last of them (`Leads`). -/
namespace CodeEditing.Worker

open Document (Clean Delta Line Passes Revision TextDocument endOf endOf_append)
open Json (Value)

/-- Whether a message is about the worker's copy: a text to take over, or a change. -/
def HostMessage.tells : HostMessage → Bool
  | init .. => false
  | command name _ => name = "setValue"
  | event name _ => name = "change"

/-! ### Steps -/

/-- A step of a host with its worker. -/
inductive Act where
  | attach (name : String)
  /-- The document `busy` is being read. -/
  | detach (busy : Option String)
  | edit (name : String) (r : Revision)
  | send (command : String) (args : List Value)
  | call (command : String) (args : List Value)
  | emit (event : String) (data : Except String Value)
  | subscribe (event : String) (handler : Handler)
  | unsubscribe (number : Nat)
  | bindRemarks
  | pump
  | pumpWaiting
  /-- Something comes from the worker that is not a message of its analysis. -/
  | receive (o : Output)
  /-- The worker handles the next message. -/
  | handle
  /-- The worker looks at its copy. -/
  | finish

/-- What is about the copy is left to the client, and no text put in has a carriage return. -/
def Act.Allowed : Act → Prop
  | edit _ r => r.Plain
  | send command _ | call command _ => command ≠ "setValue"
  | emit event _ => event ≠ "change"
  | _ => True

instance (act : Act) : Decidable act.Allowed := by
  cases act <;> unfold Act.Allowed <;> infer_instance

/-- A host with its worker, the lines that the document attached had behind each message about the
copy, and how many of these messages have been handled. -/
structure Session (σ : Type) where
  exchange : Exchange σ
  told : List (List Line)
  heard : Nat

namespace Session
variable {σ : Type}

/-- Documents of the given names and texts, and a client that has just been connected. -/
def start (a : Analysis σ) (config : Config) (docs : List (String × List Char)) : Session σ :=
  let host : Host := ⟨.ofConfig config, docs.map fun (name, text) => (name, .ofText text)⟩
  let (connected, _, effects) := host.act Client.connect
  ⟨(Exchange.ofHost a host).after connected effects, [], 0⟩

/-- The host has done something. The stages are the lines behind each of its messages about the
copy, as far as it sends any. -/
def did (s : Session σ) (stages : List (List Line)) (r : Host × α × List Effect) : Session σ :=
  {s with
    exchange := s.exchange.after r.1 r.2.2
    told := s.told ++ stages.take ((posts r.2.2).countP HostMessage.tells)}

def step (a : Analysis σ) (s : Session σ) : Act → Session σ
  | .attach name =>
    s.did ((s.exchange.host.doc? name).map TextDocument.lines).toList (s.exchange.host.attach name)
  | .detach busy => s.did [] (s.exchange.host.act Client.detach busy)
  | .edit name r =>
    s.did (((s.exchange.host.doc? name).map r.stages).getD [])
      (s.exchange.host.edit name (r.make ·))
  | .send command args => s.did [] (s.exchange.host.act (·.send command args))
  | .call command args => s.did [] (s.exchange.host.act (·.call command args))
  | .emit event data => s.did [] (s.exchange.host.act (·.emit event data))
  | .subscribe event handler => s.did [] (s.exchange.host.act (·.subscribe event handler))
  | .unsubscribe number => s.did [] (s.exchange.host.act (·.unsubscribe number))
  | .bindRemarks => s.did [] (s.exchange.host.act Client.bindRemarks)
  | .pump => s.did [] (s.exchange.host.act Client.pump)
  | .pumpWaiting => s.did [] (s.exchange.host.act Client.pumpWaiting)
  | .receive o =>
    {s with exchange.host.client := s.exchange.host.client.receive o}
  | .handle =>
    {s with
      exchange := s.exchange.workNext a
      heard := s.heard + (s.exchange.waiting.take 1).countP HostMessage.tells}
  | .finish => {s with exchange := s.exchange.finish a}

def run (a : Analysis σ) (s : Session σ) (acts : List Act) : Session σ := acts.foldl (step a) s

/-- The lines behind the last message about the copy that has been handled; one empty line if there
was none. -/
def due (s : Session σ) : List Line := endOf [[]] (s.told.take s.heard)

end Session

/-! ### What waits -/

/-- Handling the messages leads a copy from its lines through the given ones, one for each message
about the copy. -/
inductive Leads (a : Analysis σ) : List Line → List HostMessage → List (List Line) → Prop
  | nil (lines : List Line) : Leads a lines [] []
  | quiet {lines : List Line} {m : HostMessage} {ms : List HostMessage} {ts : List (List Line)}
    (hm : m.tells = false) (h : Leads a lines ms ts) : Leads a lines (m :: ms) ts
  | told {lines t : List Line} {m : HostMessage} {ms : List HostMessage} {ts : List (List Line)}
    (hm : m.tells = true)
    (hw : ∀ w : Follower σ, w.doc.lines = lines → (w.handle a m).follower.doc.lines = t)
    (h : Leads a t ms ts) : Leads a lines (m :: ms) (t :: ts)

namespace Leads
variable {a : Analysis σ} {lines : List Line} {ms ks : List HostMessage} {ts us : List (List Line)}

theorem append (h : Leads a lines ms ts) (hk : Leads a (endOf lines ts) ks us) :
    Leads a lines (ms ++ ks) (ts ++ us) := by
  induction h with
  | nil => exact hk
  | quiet hm _ ih => exact .quiet hm (ih hk)
  | told hm hw _ ih =>
    rw [endOf, List.getLastD_cons] at hk
    exact .told hm hw (ih hk)

theorem length (h : Leads a lines ms ts) : ts.length = ms.countP HostMessage.tells := by
  induction h with
  | nil => rfl
  | quiet hm _ ih => rw [List.countP_cons_of_neg (by simp [hm]), ih]
  | told hm _ _ ih => rw [List.countP_cons_of_pos hm, List.length_cons, ih]

theorem ofQuiet (h : ∀ m ∈ ms, m.tells = false) : Leads a lines ms [] := by
  induction ms with
  | nil => exact .nil lines
  | cons m ms ih =>
    exact .quiet (h m List.mem_cons_self) (ih fun m hm => h m (List.mem_cons_of_mem _ hm))

/-- A text that is taken over. -/
theorem setValue {d : TextDocument} (hl : lines ≠ []) (hd : Clean d.lines) :
    Leads a lines [.command "setValue" [.string (String.ofList d.value)]] [d.lines] := by
  refine .told rfl (fun w hw => ?_) (.nil d.lines)
  show (w.doc.setValue (String.ofList d.value).toList).doc.lines = d.lines
  rw [TextDocument.setValue_lines (hw ▸ hl), String.toList_ofList, TextDocument.value,
    hd.splitLines_joinLines]

theorem handle_change (a : Analysis σ) (w : Follower σ) (delta : Delta) :
    (w.handle a (.change delta)).follower.doc = (w.doc.applyDelta delta).doc := by
  show (w.change delta.toJson.sorted).follower.doc = _
  rw [Follower.change, Delta.decodeValue_toJson]
  rfl

/-- Changes that are made again. -/
theorem changes {deltas : List Delta} (h : Passes lines deltas ts) :
    Leads a lines (deltas.map .change) ts := by
  induction deltas generalizing lines ts with
  | nil => cases ts with
    | nil => exact .nil lines
    | cons => exact h.elim
  | cons delta deltas ih => cases ts with
    | nil => exact h.elim
    | cons t ts =>
      refine .told rfl (fun w hw => ?_) (ih h.2)
      rw [handle_change]
      exact h.1 w.doc hw

end Leads

/-- Messages about something else leave the copy alone, and whether it has changed. -/
theorem Follower.handle_quiet_eq (a : Analysis σ) (w : Follower σ) {m : HostMessage}
    (hm : m.tells = false) : ∃ state, (w.handle a m).follower = {w with state} := by
  cases m with
  | init => exact ⟨_, rfl⟩
  | command name args =>
    have hn : ¬ name = "setValue" := by simpa [HostMessage.tells] using hm
    show ∃ state, (if name = "setValue" then w.setValue args
      else w.command a name args).follower = {w with state}
    rw [if_neg hn]
    unfold command
    split
    · split
      · exact ⟨_, rfl⟩
      · exact ⟨_, rfl⟩
    · exact ⟨_, rfl⟩
  | event name data =>
    have hn : ¬ name = "change" := by simpa [HostMessage.tells] using hm
    show ∃ state, (if name = "change" then w.change data
      else .send w []).follower = {w with state}
    rw [if_neg hn]
    exact ⟨_, rfl⟩

theorem Follower.handle_quiet (a : Analysis σ) (w : Follower σ) {m : HostMessage}
    (hm : m.tells = false) : (w.handle a m).follower.doc = w.doc := by
  obtain ⟨state, hw⟩ := w.handle_quiet_eq a hm
  rw [hw]

theorem Follower.finish_doc (a : Analysis σ) (w : Follower σ) :
    (w.finish a).follower.doc = w.doc := by
  unfold finish
  split <;> rfl

/-! ### What the worker sends -/

namespace Exchange
variable {σ : Type}

theorem foldl_tell (os : List Output) (x : Exchange σ) :
    (os.foldl tell x).worker = x.worker ∧ (os.foldl tell x).waiting = x.waiting ∧
      (x.host.Tended → (os.foldl tell x).host.Tended ∧
        (os.foldl tell x).host.attached? = x.host.attached?) := by
  induction os generalizing x with
  | nil => exact ⟨rfl, rfl, fun h => ⟨h, rfl⟩⟩
  | cons o os ih =>
    obtain ⟨hw, hms, hh⟩ := ih (x.tell o)
    rw [List.foldl_cons, hw, hms]
    unfold tell at hh ⊢
    split at hh
    · next hx =>
      rw [if_pos hx]
      refine ⟨rfl, rfl, fun h => ?_⟩
      obtain ⟨ht, ha⟩ := h.receive o
      exact ⟨(hh ht).1, (hh ht).2.trans ha⟩
    · next hx =>
      rw [if_neg hx]
      exact ⟨rfl, rfl, hh⟩

theorem foldl_tell_failed (os : List Output) {x : Exchange σ} (h : x.host.client.Failed) :
    (os.foldl tell x).host.client.Failed := by
  induction os generalizing x with
  | nil => exact h
  | cons o os ih =>
    refine ih ?_
    unfold tell
    split <;> exact h

end Exchange

/-! ### The invariant -/

/-- The copy is behind what is told by what waits. -/
structure Follows (a : Analysis σ) (s : Session σ) : Prop where
  tended : s.exchange.host.Tended
  copy : s.exchange.worker.doc.lines = s.due
  leads : Leads a s.exchange.worker.doc.lines s.exchange.waiting (s.told.drop s.heard)
  heard : s.heard ≤ s.told.length
  nonempty : endOf [[]] s.told ≠ []
  latest : ∀ d, s.exchange.host.attached? = some d → endOf [[]] s.told = d.lines

namespace Follows
variable {a : Analysis σ} {s : Session σ}

/-- All that waits leads to the lines told last. -/
theorem endOf_drop (h : Follows a s) :
    endOf s.exchange.worker.doc.lines (s.told.drop s.heard) = endOf [[]] s.told := by
  rw [h.copy, Session.due, ← endOf_append, List.take_append_drop]

theorem did (h : Follows a s) {stages : List (List Line)} (ts : List (List Line))
    {r : Host × α × List Effect} (ht : r.1.Tended) (hts : stages.take ((posts r.2.2).countP HostMessage.tells) = ts)
    (hl : Leads a (endOf [[]] s.told) (posts r.2.2) ts)
    (hne : endOf (endOf [[]] s.told) ts ≠ [])
    (hd : ∀ d, r.1.attached? = some d → endOf (endOf [[]] s.told) ts = d.lines) :
    Follows a (s.did stages r) := by
  have htold : (s.did stages r).told = s.told ++ ts := by rw [Session.did, hts]
  refine ⟨ht, ?_, ?_, ?_, ?_, fun d ha => ?_⟩
  · show s.exchange.worker.doc.lines = endOf [[]] ((s.did stages r).told.take s.heard)
    rw [htold, List.take_append_of_le_length h.heard]
    exact h.copy
  · show Leads a s.exchange.worker.doc.lines (s.exchange.waiting ++ posts r.2.2)
      ((s.did stages r).told.drop s.heard)
    rw [htold, List.drop_append_of_le_length h.heard]
    exact h.leads.append (h.endOf_drop ▸ hl)
  · rw [htold, List.length_append]
    exact Nat.le_add_right_of_le h.heard
  · rw [htold, endOf_append]
    exact hne
  · rw [htold, endOf_append]
    exact hd d ha

/-- Steps that send nothing about the copy. -/
theorem did_quiet (h : Follows a s) (stages : List (List Line)) {r : Host × α × List Effect}
    (ht : r.1.Tended) (hq : ∀ m ∈ posts r.2.2, m.tells = false)
    (hd : ∀ d, r.1.attached? = some d → s.exchange.host.attached? = some d) :
    Follows a (s.did stages r) := by
  have hnone : (posts r.2.2).countP HostMessage.tells = 0 :=
    List.countP_eq_zero.2 fun m hm => by simp [hq m hm]
  exact h.did [] ht (by rw [hnone, List.take_zero]) (.ofQuiet hq) h.nonempty
    fun d hrd => h.latest d (hd d hrd)

/-- What a client does that leaves the documents and what is attached alone. -/
theorem act (h : Follows a s) {f : Client → Reaction α}
    (hc : (f s.exchange.host.client).client.Live)
    (ha : (f s.exchange.host.client).client.attachment = s.exchange.host.client.attachment)
    (he : ∀ e ∈ (f s.exchange.host.client).effects, e.Apart)
    (hq : ∀ m ∈ posts (f s.exchange.host.client).effects, m.tells = false) :
    Follows a (s.did [] (s.exchange.host.act f)) := by
  obtain ⟨ht, hsame⟩ := h.tended.act hc ha he
  exact h.did_quiet [] ht hq fun d hd => hsame ▸ hd

theorem act_post (h : Follows a s) {f : Client → Reaction α} {m : HostMessage} {c : Client}
    {result : α} (hf : f s.exchange.host.client = ⟨c, result, [.post m]⟩) (hc : c.Live)
    (ha : c.attachment = s.exchange.host.client.attachment) (hm : m.tells = false) :
    Follows a (s.did [] (s.exchange.host.act f)) := by
  refine h.act ?_ ?_ ?_ ?_ <;> rw [hf]
  · exact hc
  · exact ha
  · exact fun e he => List.mem_singleton.1 he ▸ trivial
  · exact fun k hk => List.mem_singleton.1 hk ▸ hm

theorem act_silent (h : Follows a s) {f : Client → Reaction α}
    (hc : (f s.exchange.host.client).client.Live)
    (ha : (f s.exchange.host.client).client.attachment = s.exchange.host.client.attachment)
    (he : ∀ e ∈ (f s.exchange.host.client).effects, e.Quiet) :
    Follows a (s.did [] (s.exchange.host.act f)) := by
  refine h.act hc ha (fun e hm => (he e hm).apart) fun m hm => ?_
  rw [posts_eq_nil he] at hm
  exact absurd hm List.not_mem_nil

/-- Pumping goes well or fails. -/
theorem act_steady (h : Follows a s) {f : Client → Attempt α}
    (hf : s.exchange.host.client.Steady (f s.exchange.host.client)) :
    Follows a (s.did [] (s.exchange.host.act f)) ∨
      (s.did [] (s.exchange.host.act f)).exchange.host.client.Failed := by
  unfold Client.Steady at hf
  split at hf
  · right
    show (s.exchange.host.act f).1.client.Failed
    rw [Host.act_client]
    exact hf
  · exact .inl (h.act_silent hf.1 hf.2.1 hf.2.2)

theorem attach (h : Follows a s) (name : String) : Follows a (s.step a (.attach name)) := by
  show Follows a (s.did _ (s.exchange.host.attach name))
  cases hd : s.exchange.host.doc? name with
  | none =>
    have hr : s.exchange.host.attach name = (s.exchange.host, .ok (), []) := by
      rw [Host.attach, hd]
    rw [hr]
    exact h.did_quiet _ h.tended (fun m hm => absurd hm List.not_mem_nil) fun d hd => hd
  | some d =>
    obtain ⟨ht, ⟨e, he, hlines⟩, hposts⟩ := h.tended.attach hd
    have hclean := (h.tended.docs name d hd).clean
    refine h.did [d.lines] ht ?_ ?_ ?_ ?_
    · rw [hposts]
      rfl
    · rw [hposts]
      exact .setValue h.nonempty hclean
    · exact hclean.nonempty
    · intro k hk
      rw [← Option.some.inj (he.symm.trans hk), hlines]
      rfl

theorem edit (h : Follows a s) (name : String) {r : Revision} (hr : r.Plain) :
    Follows a (s.step a (.edit name r)) := by
  show Follows a (s.did _ (s.exchange.host.edit name (r.make ·)))
  cases hd : s.exchange.host.doc? name with
  | none =>
    have hr : s.exchange.host.edit name (r.make ·) = (s.exchange.host, none, []) := by
      rw [Host.edit, hd]
    rw [hr]
    exact h.did_quiet _ h.tended (fun m hm => absurd hm List.not_mem_nil) fun d hd => hd
  | some d =>
    obtain ⟨ht, ⟨hown, hnew, hposts⟩ | ⟨hsame, hposts⟩⟩ := h.tended.edit hd hr
    · obtain ⟨hpass, hend⟩ := r.replays d hr
      have htaken : ((some d).map r.stages).getD [] = r.stages d := rfl
      have hlines := h.latest d hown
      refine h.did (r.stages d) ht ?_ ?_ ?_ ?_
      · rw [hposts, htaken, List.countP_map]
        refine List.take_of_length_le ?_
        rw [← hpass.length]
        exact Nat.le_of_eq (List.countP_eq_length.2 fun _ _ => rfl).symm
      · rw [hlines, hposts]
        exact .changes hpass
      · rw [hlines, hend]
        exact (Revision.make_clean (h.tended.docs name d hd).clean hr).nonempty
      · intro k hk
        rw [hlines, hend, ← Option.some.inj (hnew.symm.trans hk)]
    · refine h.did_quiet _ ht (fun m hm => ?_) fun d hd => hsame ▸ hd
      rw [hposts] at hm
      exact absurd hm List.not_mem_nil

/-- What the worker does beside handling a message. -/
theorem afterTurn (h : Follows a s) {t : Turn σ}
    (ht : t.follower.doc.lines = s.exchange.worker.doc.lines) :
    Follows a {s with exchange := s.exchange.afterTurn t} := by
  obtain ⟨hw, hms, hh⟩ := Exchange.foldl_tell (t.sent.map Output.message)
    {s.exchange with worker := t.follower}
  obtain ⟨htended, hsame⟩ := hh h.tended
  have hcopy : (s.exchange.afterTurn t).worker.doc.lines = s.exchange.worker.doc.lines := by
    rw [Exchange.afterTurn, hw]
    exact ht
  refine ⟨htended, hcopy.trans h.copy, ?_, h.heard, h.nonempty, fun d hd => ?_⟩
  · show Leads a (s.exchange.afterTurn t).worker.doc.lines (s.exchange.afterTurn t).waiting _
    rw [hcopy, Exchange.afterTurn, hms]
    exact h.leads
  · exact h.latest d (hsame ▸ hd)

/-- The copy after the next message, before anything has been sent. -/
theorem handled (h : Follows a s) {m : HostMessage} {ms : List HostMessage}
    (hm : s.exchange.waiting = m :: ms) : Follows a {s with
      exchange.waiting := ms
      exchange.worker := (s.exchange.worker.handle a m).follower
      heard := s.heard + [m].countP HostMessage.tells} := by
  have hleads := h.leads
  rw [hm] at hleads
  generalize hts : s.told.drop s.heard = ts at hleads
  cases hleads with
  | quiet hm hleads =>
    have hdoc := Follower.handle_quiet a s.exchange.worker hm
    have hcount : [m].countP HostMessage.tells = 0 := by simp [hm]
    rw [hcount]
    refine ⟨h.tended, hdoc ▸ h.copy, ?_, h.heard, h.nonempty, h.latest⟩
    rw [hdoc, Nat.add_zero, hts]
    exact hleads
  | @told _ t _ _ us hm hw hleads =>
    have hlines := hw s.exchange.worker rfl
    have hcount : [m].countP HostMessage.tells = 1 := by simp [hm]
    have hlen := congrArg List.length hts
    rw [List.length_drop, List.length_cons] at hlen
    rw [hcount]
    refine ⟨h.tended, ?_, ?_, by show s.heard + 1 ≤ s.told.length; omega, h.nonempty, h.latest⟩
    · show _ = endOf [[]] (s.told.take (s.heard + 1))
      rw [hlines, List.take_add, hts, endOf_append]
      rfl
    · show Leads a _ ms (s.told.drop (s.heard + 1))
      rw [hlines, ← List.drop_drop, hts]
      exact hleads

theorem handle (h : Follows a s) : Follows a (s.step a .handle) := by
  show Follows a {s with
    exchange := s.exchange.workNext a
    heard := s.heard + (s.exchange.waiting.take 1).countP HostMessage.tells}
  unfold Exchange.workNext
  cases hm : s.exchange.waiting with
  | nil => exact h
  | cons m ms => exact (h.handled hm).afterTurn (t := s.exchange.worker.handle a m) rfl

theorem finish (h : Follows a s) : Follows a (s.step a .finish) :=
  h.afterTurn (by rw [Follower.finish_doc])

theorem receive (h : Follows a s) (o : Output) : Follows a (s.step a (.receive o)) := by
  obtain ⟨ht, hsame⟩ := h.tended.receive o
  exact ⟨ht, h.copy, h.leads, h.heard, h.nonempty, fun d hd => h.latest d (hsame ▸ hd)⟩

/-- Every step keeps the invariant, or the client fails. -/
theorem step (h : Follows a s) {act : Act} (hact : act.Allowed) :
    Follows a (s.step a act) ∨ (s.step a act).exchange.host.client.Failed := by
  have hlive := h.tended.live
  cases act with
  | attach name => exact .inl (h.attach name)
  | detach busy =>
    obtain ⟨ht, hnone⟩ := h.tended.detach busy
    refine .inl (h.did_quiet [] ht (fun m hm => ?_) fun d hd => ?_)
    · change m ∈ posts (s.exchange.host.client.detach).effects at hm
      rw [hlive.detach, Client.posts_releases] at hm
      exact absurd hm List.not_mem_nil
    · exact absurd (hnone.symm.trans hd) nofun
  | edit name r => exact .inl (h.edit name hact)
  | send command args =>
    exact .inl (h.act_post (hlive.post _) hlive rfl (decide_eq_false hact))
  | call command args =>
    exact .inl (h.act_post (hlive.call command args) ⟨hlive.phase, hlive.link⟩ rfl
      (decide_eq_false hact))
  | emit event data =>
    cases data with
    | ok data => exact .inl (h.act_post (hlive.post _) hlive rfl (decide_eq_false hact))
    | error e =>
      exact .inl (h.act_silent hlive rfl fun e he => List.mem_singleton.1 he ▸ trivial)
  | subscribe event handler =>
    exact .inl (h.act_silent ⟨hlive.phase, hlive.link⟩ rfl fun e he => absurd he List.not_mem_nil)
  | unsubscribe number =>
    exact .inl (h.act_silent ⟨hlive.phase, hlive.link⟩ rfl fun e he => absurd he List.not_mem_nil)
  | bindRemarks =>
    exact .inl (h.act_silent ⟨hlive.phase, hlive.link⟩ rfl fun e he => absurd he List.not_mem_nil)
  | pump => exact h.act_steady (Client.pump_steady hlive)
  | pumpWaiting => exact h.act_steady (Client.pumpWaiting_steady hlive)
  | receive o => exact .inl (h.receive o)
  | handle => exact .inl h.handle
  | finish => exact .inl h.finish

end Follows

namespace Session
variable {a : Analysis σ} {s : Session σ}

theorem step_failed (h : s.exchange.host.client.Failed) (act : Act) :
    (s.step a act).exchange.host.client.Failed := by
  have hact : ∀ {α : Type} {f : Client → Reaction α} (busy : Option String),
      (f s.exchange.host.client).client.Failed →
        (s.did [] (s.exchange.host.act f busy)).exchange.host.client.Failed := by
    intro α f busy hf
    show (s.exchange.host.act f busy).1.client.Failed
    rw [Host.act_client]
    exact hf
  cases act with
  | attach name =>
    show (s.exchange.host.attach name).1.client.Failed
    unfold Host.attach
    split
    · rw [Host.act_client]
      exact h.attach _ _ _
    · exact h
  | detach busy => exact hact busy h.detach
  | edit name r =>
    show (s.exchange.host.edit name (r.make ·)).1.client.Failed
    unfold Host.edit
    split <;> exact h
  | send command args => exact hact none (h.post _)
  | call command args => exact hact none (h.call command args)
  | emit event data => exact hact none (h.emit event data)
  | subscribe event handler => exact hact none h
  | unsubscribe number => exact hact none h
  | bindRemarks => exact hact none h
  | pump => exact hact none h.pump
  | pumpWaiting => exact hact none h.pumpWaiting
  | receive o => exact h
  | handle =>
    show (s.exchange.workNext a).host.client.Failed
    unfold Exchange.workNext
    split
    · exact h
    · exact Exchange.foldl_tell_failed _ h
  | finish => exact Exchange.foldl_tell_failed _ h

theorem start_follows (a : Analysis σ) (config : Config) {docs : List (String × List Char)}
    (hdocs : ∀ p ∈ docs, '\r' ∉ p.2) : Follows a (start a config docs) where
  tended := by
    refine ⟨⟨rfl, [], rfl⟩, fun name d hd => ?_, nofun⟩
    obtain ⟨p, hp, rfl⟩ := mem_of_lookup_ofText hd
    exact .ofText (hdocs p hp)
  copy := rfl
  leads := .quiet rfl (.nil _)
  heard := Nat.le_refl 0
  nonempty := List.cons_ne_nil _ _
  latest := nofun

theorem run_follows (h : Follows a s) {acts : List Act} (hacts : ∀ act ∈ acts, act.Allowed) :
    Follows a (s.run a acts) ∨ (s.run a acts).exchange.host.client.Failed := by
  have hgo : ∀ {s : Session σ}, Follows a s ∨ s.exchange.host.client.Failed →
      Follows a (s.run a acts) ∨ (s.run a acts).exchange.host.client.Failed := by
    clear h
    intro s h
    induction acts generalizing s with
    | nil => exact h
    | cons act acts ih =>
      refine ih (fun act ha => hacts act (List.mem_cons_of_mem _ ha)) ?_
      rcases h with h | h
      · exact h.step (hacts act List.mem_cons_self)
      · exact .inr (step_failed h act)
  exact hgo (.inl h)

/-- **The copy follows the document attached.** However the steps of a host and its worker are
mixed, as long as the client does not fail: the copy has the lines that the document attached had
just behind the last message about it that has been handled; those told last are the lines of the
document attached, so the copy has these when nothing waits. -/
theorem copy_follows (a : Analysis σ) (config : Config) (docs : List (String × List Char))
    (acts : List Act) (hdocs : ∀ p ∈ docs, '\r' ∉ p.2) (hacts : ∀ act ∈ acts, act.Allowed)
    (hphase : ((start a config docs).run a acts).exchange.host.client.phase ≠ .faulted) :
    let s := (start a config docs).run a acts
    s.exchange.worker.doc.lines = s.due ∧
      s.told.length = s.heard + s.exchange.waiting.countP HostMessage.tells ∧
      (s.exchange.host.client.phase = .attached → s.exchange.host.attached?.isSome) ∧
      ∀ d, s.exchange.host.attached? = some d →
        endOf [[]] s.told = d.lines ∧
          (s.exchange.waiting = [] → s.exchange.worker.doc.lines = d.lines) := by
  intro s
  have h : Follows a s := (run_follows (start_follows a config hdocs) hacts).resolve_right hphase
  have hcount : s.told.length = s.heard + s.exchange.waiting.countP HostMessage.tells := by
    have := h.leads.length
    rw [List.length_drop] at this
    have := h.heard
    omega
  refine ⟨h.copy, hcount, fun hattached => ?_, fun d hd => ⟨h.latest d hd, fun hwaiting => ?_⟩⟩
  · have hphase := h.tended.live.phase
    cases ha : s.exchange.host.client.attachment with
    | none =>
      rw [hattached, ha] at hphase
      exact absurd hphase (by decide)
    | some b =>
      obtain ⟨d, hd, -⟩ := h.tended.listens b ha
      rw [Host.attached?, ha, Option.bind_some, hd]
      rfl
  · rw [hwaiting, List.countP_nil, Nat.add_zero] at hcount
    rw [h.copy, due, ← hcount, List.take_length, h.latest d hd]

/-- The texts of two documents. -/
def twoTexts : List (String × List Char) := [("a", ['1', '\n', '2']), ("b", ['b'])]

/-- The second document is attached while a change of the first is still waiting. -/
def crossing : List Act :=
  [.attach "a", .edit "a" (.replace ⟨⟨0, 1⟩, ⟨1, 0⟩⟩ ['x', '\n', 'y']), .handle, .handle, .handle,
    .pump, .finish, .attach "b", .edit "a" (.setValue ['z']), .edit "b" (.insert ⟨0, 9⟩ ['!']),
    .send "lint" [], .handle, .handle]

theorem copy_follows_crossing :
    (∀ p ∈ twoTexts, '\r' ∉ p.2) ∧ (∀ act ∈ crossing, act.Allowed) ∧
      ((start linter .default twoTexts).run linter crossing).exchange.host.client.phase ≠ .faulted ∧
      ((start linter .default twoTexts).run linter crossing).told =
        [[['1'], ['2']], [['1', '2']], [['1', 'x'], ['y', '2']], [['b']], [['b', '!']]] ∧
      ((start linter .default twoTexts).run linter crossing).exchange.worker.doc.lines =
        [['b']] := by
  have hdocs : ∀ p ∈ twoTexts, '\r' ∉ p.2 := by decide
  have hacts : ∀ act ∈ crossing, act.Allowed := by decide
  have hphase : ((start linter .default twoTexts).run linter
      crossing).exchange.host.client.phase ≠ .faulted := by decide
  obtain ⟨hcopy, -⟩ := copy_follows linter .default twoTexts crossing hdocs hacts hphase
  exact ⟨hdocs, hacts, hphase, by decide, hcopy.trans (by decide)⟩

end Session

end CodeEditing.Worker
