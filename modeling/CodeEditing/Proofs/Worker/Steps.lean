import CodeEditing.Proofs.Worker.Mirror
import CodeEditing.Proofs.Worker.Pumping

/-! What one step of a session can do.

A step is one of few moves (`Move`): the host sends messages and keeps its books, the client pumps
what waits, the worker ends, or the worker takes its turn. A move says what becomes of everything
that is under way, with what the worker sends and what the client does beyond its own state. While
the client does not fail every step is a move (`Follows.step_move`), so what moves keep holds of every
run (`Follows.run_keeps`). -/
namespace CodeEditing.Worker

open Document (Delta Line Remark Revision TextDocument endOf)
open Json (Value)

/-- What comes from the worker beside its messages is its end. -/
def Act.Genuine : Act → Prop
  | receive (.message _) => False
  | _ => True

instance (act : Act) : Decidable act.Genuine := by
  unfold Act.Genuine
  split <;> infer_instance

namespace Session
variable {σ : Type}

/-! ### What is seen of steps -/

/-- The messages that wait to be pumped. -/
def coming (s : Session σ) : List WorkerMessage :=
  s.exchange.host.client.inbox.filterMap Output.message?

theorem coming_eq {s : Session σ} {ms : List WorkerMessage}
    (h : s.exchange.host.client.inbox = ms.map .message) : s.coming = ms := by
  rw [coming, h, Output.filterMap_message?]

theorem mem_coming {s : Session σ} {m : WorkerMessage} :
    m ∈ s.coming ↔ .message m ∈ s.exchange.host.client.inbox := by
  refine List.mem_filterMap.trans ⟨fun ⟨o, ho, hm⟩ => ?_, fun h => ⟨_, h, rfl⟩⟩
  cases o with
  | message k => exact Option.some.inj hm ▸ ho
  | fault reason => cases hm
  | exited => cases hm

/-- What the worker sends in a step. -/
def sentBy (a : Analysis σ) (s : Session σ) : Act → List WorkerMessage
  | .handle => (s.exchange.waiting.take 1).flatMap fun m => (s.exchange.worker.handle a m).sent
  | .finish => (s.exchange.worker.finish a).sent
  | _ => []

/-- What the client does beyond its own state in a step. -/
def effectsBy (s : Session σ) : Act → List Effect
  | .attach name => (s.exchange.host.attach name).2.2
  | .detach busy => (s.exchange.host.act Client.detach busy).2.2
  | .edit name r => (s.exchange.host.edit name (r.make ·)).2.2
  | .send command args => (s.exchange.host.act (·.send command args)).2.2
  | .call command args => (s.exchange.host.act (·.call command args)).2.2
  | .emit event data => (s.exchange.host.act (·.emit event data)).2.2
  | .subscribe event handler => (s.exchange.host.act (·.subscribe event handler)).2.2
  | .unsubscribe number => (s.exchange.host.act (·.unsubscribe number)).2.2
  | .bindRemarks => (s.exchange.host.act Client.bindRemarks).2.2
  | .pump => (s.exchange.host.act Client.pump).2.2
  | .pumpWaiting => (s.exchange.host.act Client.pumpWaiting).2.2
  | .receive _ | .handle | .finish => []

/-- What the worker sends in a run. -/
def sentIn (a : Analysis σ) (s : Session σ) : List Act → List WorkerMessage
  | [] => []
  | act :: acts => s.sentBy a act ++ sentIn a (s.step a act) acts

/-- What the client does beyond its own state in a run. -/
def effectsIn (a : Analysis σ) (s : Session σ) : List Act → List Effect
  | [] => []
  | act :: acts => s.effectsBy act ++ effectsIn a (s.step a act) acts

theorem sentIn_append (a : Analysis σ) (s : Session σ) (acts more : List Act) :
    s.sentIn a (acts ++ more) = s.sentIn a acts ++ (s.run a acts).sentIn a more := by
  induction acts generalizing s with
  | nil => rfl
  | cons act acts ih =>
    rw [List.cons_append, sentIn, ih, ← List.append_assoc]
    rfl

theorem effectsIn_append (a : Analysis σ) (s : Session σ) (acts more : List Act) :
    s.effectsIn a (acts ++ more) = s.effectsIn a acts ++ (s.run a acts).effectsIn a more := by
  induction acts generalizing s with
  | nil => rfl
  | cons act acts ih =>
    rw [List.cons_append, effectsIn, ih, ← List.append_assoc]
    rfl

theorem run_failed {a : Analysis σ} {s : Session σ} (h : s.exchange.host.client.Failed)
    (acts : List Act) : (s.run a acts).exchange.host.client.Failed := by
  induction acts generalizing s with
  | nil => exact h
  | cons act acts ih => exact ih (step_failed h act)

end Session

/-! ### Moves -/

/-- The books of a client behind a step of its host: calls that wait, and subscribers. -/
def Act.book (c : Client) : Act → Client
  | call command _ =>
    {c with nextCall := c.nextCall + 1, pending := c.pending ++ [(c.nextCall, command)]}
  | subscribe event handler => (c.subscribe event handler).client
  | unsubscribe number => (c.unsubscribe number).client
  | bindRemarks => c.bindRemarks.client
  | _ => c

/-- The messages that a host sends in a step. -/
def Act.Posts (c : Client) : Act → List HostMessage → Prop
  | attach _, ms => ms = [] ∨ ∃ text, ms = [.command "setValue" [.string text]]
  | edit _ _, ms =>
    ∃ deltas : List Delta, ms = deltas.map .change ∧ (c.attachment = none → ms = [])
  | send command args, ms => ms = [.command command args]
  | call command args, ms => ms = [.call command args c.nextCall]
  | emit event (.ok data), ms => ms = [.event event data]
  | _, ms => ms = []

/-- A step of the host: it sends messages, and the worker is left alone. -/
structure HostMove {σ : Type} (s : Session σ) (act : Act) (s' : Session σ)
    (ms : List HostMessage) : Prop where
  posts : act.Posts s.exchange.host.client ms
  waiting : s'.exchange.waiting = s.exchange.waiting ++ ms
  client : ∃ attachment phase,
    s'.exchange.host.client = {act.book s.exchange.host.client with attachment, phase}
  /-- A document that was not attached before is told. -/
  attached : s'.exchange.host.client.attachment = none ∨
    s'.exchange.host.client.attachment = s.exchange.host.client.attachment ∨
    ∃ m ∈ ms, m.tells
  worker : s'.exchange.worker = s.exchange.worker
  remarks : s'.exchange.remarks = s.exchange.remarks
  heard : s'.heard = s.heard

namespace HostMove
variable {σ : Type} {s s' : Session σ} {act : Act} {ms : List HostMessage}

theorem inbox (h : HostMove s act s' ms) :
    s'.exchange.host.client.inbox = s.exchange.host.client.inbox := by
  obtain ⟨attachment, phase, hc⟩ := h.client
  rw [hc]
  cases act <;> rfl

theorem coming (h : HostMove s act s' ms) : s'.coming = s.coming := by
  rw [Session.coming, h.inbox]
  rfl

theorem subscribers (h : HostMove s act s' ms) : s'.exchange.host.client.subscribers =
    (act.book s.exchange.host.client).subscribers := by
  obtain ⟨attachment, phase, hc⟩ := h.client
  rw [hc]

theorem nextCall (h : HostMove s act s' ms) : s'.exchange.host.client.nextCall =
    (act.book s.exchange.host.client).nextCall := by
  obtain ⟨attachment, phase, hc⟩ := h.client
  rw [hc]

theorem pending (h : HostMove s act s' ms) : s'.exchange.host.client.pending =
    (act.book s.exchange.host.client).pending := by
  obtain ⟨attachment, phase, hc⟩ := h.client
  rw [hc]

end HostMove

/-- A client with other things waiting to be pumped. -/
def Client.holding (c : Client) (inbox : List Output) : Client :=
  {c with link := some ⟨inbox, true⟩}

/-- The worker has handled messages or looked at its copy; others are left waiting. -/
def Session.worked {σ : Type} (s : Session σ) (t : Turn σ) (left : List HostMessage) (heard : Nat) :
    Session σ :=
  let c := s.exchange.host.client
  {s with
    exchange.host.client := c.holding (c.inbox ++ t.sent.map .message)
    exchange.worker := t.follower
    exchange.waiting := left
    heard}

theorem Session.coming_worked {σ : Type} (s : Session σ) (t : Turn σ) (left : List HostMessage)
    (heard : Nat) : (s.worked t left heard).coming = s.coming ++ t.sent := by
  show (s.exchange.host.client.inbox ++ t.sent.map Output.message).filterMap _ = _
  rw [List.filterMap_append, Output.filterMap_message?]
  rfl

/-- An end that waits to be pumped is no message. -/
theorem Session.coming_ending {σ : Type} (s : Session σ) {o : Output} (ho : o.message? = none) :
    coming {s with exchange.host.client :=
      s.exchange.host.client.holding (s.exchange.host.client.inbox ++ [o])} = s.coming := by
  show (s.exchange.host.client.inbox ++ [o]).filterMap _ = _
  rw [List.filterMap_append, List.filterMap_cons_none ho, List.filterMap_nil, List.append_nil]
  rfl

/-- The remarks shown stay. -/
def Effect.Unshown (e : Effect) : Prop := ∀ remarks, shown remarks e = remarks

/-- An effect that neither the remarks shown nor whoever made a call can tell of. -/
structure Effect.Silent (e : Effect) : Prop where
  unshown : e.Unshown
  answer : e.answer? = none

/-- What a step can do: the session behind it, what the worker sends, and what the client does beyond
its own state. -/
inductive Move {σ : Type} (a : Analysis σ) (s : Session σ) :
    Act → Session σ → List WorkerMessage → List Effect → Prop
  | host {act : Act} {s' : Session σ} {ms : List HostMessage} {effects : List Effect}
    (h : HostMove s act s' ms) (silent : ∀ e ∈ effects, e.Silent) : Move a s act s' [] effects
  | pump {act : Act} {ms : List WorkerMessage} {c : Client}
    (hact : act = .pump ∨ act = .pumpWaiting) (hc : c = s.exchange.host.client)
    (hms : c.inbox = ms.map .message) :
    Move a s act
      {s with
        exchange.host.client := c.pumped ms
        exchange.remarks := (c.reactions ms).foldl shown s.exchange.remarks}
      [] (c.reactions ms)
  | ending {o : Output} {c : Client} (hc : c = s.exchange.host.client) (ho : o.message? = none) :
    Move a s (.receive o) {s with exchange.host.client := c.holding (c.inbox ++ [o])} [] []
  | idle (hw : s.exchange.waiting = []) : Move a s .handle s [] []
  | handle {m : HostMessage} {ms : List HostMessage} {t : Turn σ}
    (hm : s.exchange.waiting = m :: ms) (ht : t = s.exchange.worker.handle a m) :
    Move a s .handle (s.worked t ms (s.heard + [m].countP HostMessage.tells)) t.sent []
  | finish {t : Turn σ} (ht : t = s.exchange.worker.finish a) :
    Move a s .finish (s.worked t s.exchange.waiting s.heard) t.sent []

/-! ### Every step is a move -/

theorem foldl_shown {effects : List Effect} (h : ∀ e ∈ effects, e.Unshown)
    (remarks : List Remark) : effects.foldl shown remarks = remarks := by
  induction effects with
  | nil => rfl
  | cons e effects ih =>
    rw [List.foldl_cons, h e List.mem_cons_self]
    exact ih fun e he => h e (List.mem_cons_of_mem _ he)

theorem Client.Live.receive_eq {c : Client} (h : c.Live) (o : Output) :
    c.receive o = c.holding (c.inbox ++ [o]) := by
  rw [Client.receive, h.link_eq]
  rfl

theorem Client.Live.holding {c : Client} (h : c.Live) (inbox : List Output) :
    (c.holding inbox).Live :=
  ⟨h.phase, inbox, rfl⟩

/-- What the worker sends comes behind what waits to be pumped. -/
theorem Exchange.foldl_tell_live {σ : Type} {x : Exchange σ} (h : x.host.client.Live)
    (ms : List WorkerMessage) : (ms.map Output.message).foldl tell x =
      {x with host.client := x.host.client.holding (x.host.client.inbox ++ ms.map .message)} := by
  induction ms generalizing x with
  | nil =>
    have hsame : x.host.client.holding x.host.client.inbox = x.host.client := by
      rw [Client.holding, ← h.link_eq]
    rw [List.map_nil, List.append_nil, hsame]
    rfl
  | cons m ms ih =>
    have hx : x.tell (.message m) =
        {x with host.client := x.host.client.holding (x.host.client.inbox ++ [.message m])} := by
      rw [tell, isHeard, h.link_eq, ← h.receive_eq]
      rfl
    rw [List.map_cons, List.foldl_cons, hx]
    refine (ih (h.holding _)).trans ?_
    exact congrArg (fun os => {x with host.client := x.host.client.holding os})
      (List.append_cons ..).symm

theorem Exchange.afterTurn_live {σ : Type} {x : Exchange σ} (h : x.host.client.Live) (t : Turn σ) :
    x.afterTurn t = {x with
      host.client := x.host.client.holding (x.host.client.inbox ++ t.sent.map .message)
      worker := t.follower} :=
  foldl_tell_live (x := {x with worker := t.follower}) h t.sent

namespace Session
variable {σ : Type} {a : Analysis σ} {s : Session σ} {act : Act}

/-- A step of the host, by the client and the effects behind it. -/
theorem did_move {stages : List (List Line)} {r : Host × α × List Effect}
    (hc : ∃ attachment phase,
      r.1.client = {act.book s.exchange.host.client with attachment, phase})
    (hp : act.Posts s.exchange.host.client (posts r.2.2))
    (ha : r.1.client.attachment = none ∨
      r.1.client.attachment = s.exchange.host.client.attachment ∨ ∃ m ∈ posts r.2.2, m.tells)
    (he : ∀ e ∈ r.2.2, e.Silent) :
    Move a s act (s.did stages r) [] r.2.2 :=
  .host ⟨hp, rfl, hc, ha, rfl, foldl_shown (fun e hmem => (he e hmem).unshown) _, rfl⟩ he

/-- A step of the host in which the client keeps to the document attached, or to none. -/
theorem act_move {f : Client → Reaction α} {busy : Option String} {result : α}
    {effects : List Effect} {attachment : Option Attachment} {phase : Phase}
    (hf : f s.exchange.host.client =
      ⟨{act.book s.exchange.host.client with attachment, phase}, result, effects⟩)
    (ha : attachment = none ∨ attachment = s.exchange.host.client.attachment)
    (hp : act.Posts s.exchange.host.client (posts effects))
    (he : ∀ e ∈ effects, e.Silent) :
    Move a s act (s.did [] (s.exchange.host.act f busy)) [] (s.exchange.host.act f busy).2.2 := by
  have hc : (s.exchange.host.act f busy).1.client =
      {act.book s.exchange.host.client with attachment, phase} := by
    rw [Host.act_client, hf]
  have hr : (s.exchange.host.act f busy).2.2 = effects := by
    rw [Host.act, hf]
  refine did_move ⟨_, _, hc⟩ ?_ ?_ ?_
  · rw [hr]
    exact hp
  · rw [hc]
    exact ha.imp_right .inl
  · rw [hr]
    exact he

end Session

namespace Follows
variable {σ : Type} {a : Analysis σ} {s : Session σ}

theorem withRemarks (h : Follows a s) (remarks : List Remark) :
    Follows a {s with exchange.remarks := remarks} :=
  ⟨h.tended, h.copy, h.leads, h.heard, h.nonempty, h.latest⟩

/-- Once nothing waits the copy has the lines of the document attached. -/
theorem copy_latest (h : Follows a s) (hw : s.exchange.waiting = []) {d : TextDocument}
    (hd : s.exchange.host.attached? = some d) : s.exchange.worker.doc.lines = d.lines := by
  have hleads := h.leads.length
  rw [hw, List.countP_nil] at hleads
  have hend := h.endOf_drop
  rw [List.eq_nil_of_length_eq_zero hleads] at hend
  exact hend.trans (h.latest d hd)

theorem attach_move (h : Follows a s) (name : String) :
    Move a s (.attach name) (s.step a (.attach name)) [] (s.effectsBy (.attach name)) := by
  show Move a s _ (s.did _ (s.exchange.host.attach name)) [] (s.exchange.host.attach name).2.2
  cases hd : s.exchange.host.doc? name with
  | none =>
    rw [show s.exchange.host.attach name = (s.exchange.host, .ok (), []) by rw [Host.attach, hd]]
    exact Session.did_move ⟨_, _, rfl⟩ (.inl rfl) (.inr (.inl rfl))
      fun e he => absurd he List.not_mem_nil
  | some d =>
    have hlive := h.tended.live
    obtain ⟨-, -, hposts⟩ := h.tended.attach hd
    have hx : s.exchange.host.attach name =
        s.exchange.host.act (·.attach name d.value d.nextListener) := by rw [Host.attach, hd]
    have hact := hlive.attach name d.value d.nextListener
    refine Session.did_move ⟨some ⟨name, d.nextListener⟩, .attached, ?_⟩ (.inr ⟨_, hposts⟩) ?_ ?_
    · rw [hx, Host.act_client, hact]
      rfl
    · rw [hposts]
      exact .inr (.inr ⟨_, List.mem_cons_self, rfl⟩)
    · rw [hx, Host.act, hact]
      intro e he
      rcases List.mem_append.1 he with he | he
      · obtain ⟨g, -, rfl⟩ := List.mem_map.1 he
        exact ⟨fun _ => rfl, rfl⟩
      · rcases List.mem_cons.1 he with rfl | he
        · exact ⟨fun _ => rfl, rfl⟩
        · exact List.mem_singleton.1 he ▸ ⟨fun _ => rfl, rfl⟩

theorem edit_move (h : Follows a s) (name : String) {r : Revision} (hr : r.Plain) :
    Move a s (.edit name r) (s.step a (.edit name r)) [] (s.effectsBy (.edit name r)) := by
  show Move a s _ (s.did _ (s.exchange.host.edit name (r.make ·))) []
    (s.exchange.host.edit name (r.make ·)).2.2
  cases hd : s.exchange.host.doc? name with
  | none =>
    rw [show s.exchange.host.edit name (r.make ·) = (s.exchange.host, none, []) by
      rw [Host.edit, hd]]
    exact Session.did_move ⟨_, _, rfl⟩ ⟨[], rfl, fun _ => rfl⟩ (.inr (.inl rfl))
      fun e he => absurd he List.not_mem_nil
  | some d =>
    have hclient := Host.edit_client hd r
    refine Session.did_move ⟨_, _, hclient⟩ ?_ (.inr (.inl (congrArg Client.attachment hclient))) ?_
    · rcases (h.tended.edit hd hr).2 with ⟨hown, -, hposts⟩ | ⟨-, hposts⟩
      · refine ⟨_, hposts, fun hnone => ?_⟩
        rw [Host.attached?, hnone] at hown
        cases hown
      · exact ⟨[], hposts, fun _ => hposts⟩
    · rw [Host.edit_effects hd (h.tended.docs name d hd).nodup]
      intro e he
      split at he
      · obtain ⟨delta, -, rfl⟩ := List.mem_map.1 he
        exact ⟨fun _ => rfl, rfl⟩
      · exact absurd he List.not_mem_nil

/-- Pumping goes well as long as only messages have come. -/
theorem pump_cases (h : Follows a s) {f : Client → Attempt Nat}
    (hf : f s.exchange.host.client = s.exchange.host.client.pump) :
    (s.did [] (s.exchange.host.act f)).exchange.host.client.Failed ∧
        (∃ o ∈ s.exchange.host.client.inbox, o.message? = none) ∨
      ∃ ms : List WorkerMessage, s.exchange.host.client.inbox = ms.map .message ∧
        s.did [] (s.exchange.host.act f) = {s with
          exchange.host.client := s.exchange.host.client.pumped ms
          exchange.remarks :=
            (s.exchange.host.client.reactions ms).foldl shown s.exchange.remarks} ∧
        (s.exchange.host.act f).2.2 = s.exchange.host.client.reactions ms := by
  rcases h.tended.live.pump_cases with ⟨hfailed, hother⟩ | ⟨ms, hms, hp⟩
  · refine .inl ⟨?_, hother⟩
    show (s.exchange.host.act f).1.client.Failed
    rw [Host.act_client, hf]
    exact hfailed
  · have hquiet := s.exchange.host.client.reactions_quiet ms
    have hx : s.exchange.host.act f =
        ({s.exchange.host with client := s.exchange.host.client.pumped ms}, .ok ms.length,
          s.exchange.host.client.reactions ms) := by
      rw [Host.act, hf, hp]
      exact congrArg (·, _, _) (Host.foldl_settle_apart none _ fun e he => (hquiet e he).apart)
    refine .inr ⟨ms, hms, ?_, by rw [hx]⟩
    rw [hx, Session.did, Exchange.after, posts_eq_nil hquiet, List.take_nil, List.append_nil,
      List.append_nil]

theorem step_pump (h : Follows a s)
    (hcome : ∀ o ∈ s.exchange.host.client.inbox, o.message?.isSome) :
    ∃ ms remarks, s.step a .pump = {s with
      exchange.host.client := s.exchange.host.client.pumped ms, exchange.remarks := remarks} := by
  rcases h.pump_cases (f := Client.pump) rfl with ⟨-, o, ho, hnone⟩ | ⟨ms, -, hs, -⟩
  · exact absurd (hcome o ho) (by simp [hnone])
  · exact ⟨ms, _, hs⟩

theorem pump_move (h : Follows a s) {act : Act} {f : Client → Attempt Nat}
    (hact : act = .pump ∨ act = .pumpWaiting)
    (hf : f s.exchange.host.client = s.exchange.host.client.pump) :
    Move a s act (s.did [] (s.exchange.host.act f)) [] (s.exchange.host.act f).2.2 ∨
      (s.did [] (s.exchange.host.act f)).exchange.host.client.Failed := by
  rcases h.pump_cases hf with ⟨hfailed, -⟩ | ⟨ms, hms, hs, heffects⟩
  · exact .inr hfailed
  · rw [hs, heffects]
    exact .inl (.pump hact rfl hms)

theorem handle_move (h : Follows a s) :
    Move a s .handle (s.step a .handle) (s.sentBy a .handle) [] := by
  rw [Session.step, Session.sentBy, Exchange.workNext]
  cases hm : s.exchange.waiting with
  | nil => exact .idle hm
  | cons m ms =>
    have hsent : (([m] : List HostMessage).flatMap fun m => (s.exchange.worker.handle a m).sent) =
        (s.exchange.worker.handle a m).sent := List.flatMap_singleton ..
    dsimp only
    rw [Exchange.afterTurn_live (x := {s.exchange with waiting := ms}) h.tended.live]
    show Move a s .handle _ (([m] : List HostMessage).flatMap _) []
    rw [hsent]
    exact .handle hm rfl

/-- Every step is a move, unless the client fails. -/
theorem step_move (h : Follows a s) {act : Act} (hact : act.Allowed) (hgen : act.Genuine) :
    Move a s act (s.step a act) (s.sentBy a act) (s.effectsBy act) ∨
      (s.step a act).exchange.host.client.Failed := by
  have hlive := h.tended.live
  have hnone : ∀ e ∈ ([] : List Effect), e.Silent := fun e he => absurd he List.not_mem_nil
  have hpost : ∀ m, ∀ e ∈ [Effect.post m], e.Silent :=
    fun m e he => List.mem_singleton.1 he ▸ ⟨fun _ => rfl, rfl⟩
  cases act with
  | attach name => exact .inl (h.attach_move name)
  | detach busy =>
    refine .inl (Session.act_move hlive.detach (.inl rfl) (Client.posts_releases _) fun e he => ?_)
    obtain ⟨g, -, rfl⟩ := List.mem_map.1 he
    exact ⟨fun _ => rfl, rfl⟩
  | edit name r => exact .inl (h.edit_move name hact)
  | send command args =>
    exact .inl (Session.act_move (f := (·.send command args)) (hlive.post _) (.inr rfl) rfl
      (hpost _))
  | call command args =>
    exact .inl (Session.act_move (f := (·.call command args)) (hlive.call command args) (.inr rfl)
      rfl (hpost _))
  | emit event data =>
    cases data with
    | ok data =>
      exact .inl (Session.act_move (f := (·.emit event (.ok data))) (hlive.post _) (.inr rfl) rfl
        (hpost _))
    | error e =>
      exact .inl (Session.act_move (f := (·.emit event (.error e))) rfl (.inr rfl) rfl
        fun e he => List.mem_singleton.1 he ▸ ⟨fun _ => rfl, rfl⟩)
  | subscribe event handler =>
    exact .inl (Session.act_move (f := (·.subscribe event handler)) rfl (.inr rfl) rfl hnone)
  | unsubscribe number =>
    exact .inl (Session.act_move (f := (·.unsubscribe number)) rfl (.inr rfl) rfl hnone)
  | bindRemarks => exact .inl (Session.act_move (f := Client.bindRemarks) rfl (.inr rfl) rfl hnone)
  | pump => exact h.pump_move (.inl rfl) rfl
  | pumpWaiting => exact h.pump_move (.inr rfl) s.exchange.host.client.pumpWaiting_eq
  | receive o =>
    left
    have hs : s.step a (.receive o) = {s with
        exchange.host.client := s.exchange.host.client.holding
          (s.exchange.host.client.inbox ++ [o])} := by
      rw [Session.step, hlive.receive_eq]
    rw [hs]
    cases o with
    | message m => exact hgen.elim
    | fault reason => exact .ending rfl rfl
    | exited => exact .ending rfl rfl
  | handle => exact .inl h.handle_move
  | finish =>
    left
    have hs : s.step a .finish =
        s.worked (s.exchange.worker.finish a) s.exchange.waiting s.heard := by
      rw [Session.step, Exchange.finish, Exchange.afterTurn_live hlive]
      rfl
    rw [hs]
    exact .finish rfl

/-- The first move of a run that goes well. -/
theorem move_of_run (h : Follows a s) (act : Act) {acts : List Act} (hact : act.Allowed)
    (hgen : act.Genuine)
    (hphase : (s.run a (act :: acts)).exchange.host.client.phase ≠ .faulted) :
    Follows a (s.step a act) ∧
      Move a s act (s.step a act) (s.sentBy a act) (s.effectsBy act) := by
  have hfailed : ¬ (s.step a act).exchange.host.client.Failed :=
    fun hf => hphase (Session.run_failed hf acts)
  exact ⟨(h.step hact).resolve_right hfailed, (h.step_move hact hgen).resolve_right hfailed⟩

/-- What every move keeps holds of every run that goes well. -/
theorem run_keeps (h : Follows a s) {acts : List Act}
    (hacts : ∀ act ∈ acts, act.Allowed ∧ act.Genuine)
    (hphase : (s.run a acts).exchange.host.client.phase ≠ .faulted)
    {P : Session σ → List WorkerMessage → List Effect → Prop}
    (hmove : ∀ act ∈ acts, ∀ s s' sent effects ms es, Move a s act s' ms es → P s sent effects →
      P s' (sent ++ ms) (effects ++ es))
    (sent : List WorkerMessage) (effects : List Effect) (hs : P s sent effects) :
    Follows a (s.run a acts) ∧
      P (s.run a acts) (sent ++ s.sentIn a acts) (effects ++ s.effectsIn a acts) := by
  induction acts generalizing s sent effects with
  | nil =>
    rw [Session.sentIn, Session.effectsIn, List.append_nil, List.append_nil]
    exact ⟨h, hs⟩
  | cons act acts ih =>
    obtain ⟨hact, hgen⟩ := hacts act List.mem_cons_self
    obtain ⟨hnext, hm⟩ := h.move_of_run act hact hgen hphase
    rw [Session.sentIn, Session.effectsIn, ← List.append_assoc, ← List.append_assoc]
    exact ih hnext (fun act ha => hacts act (List.mem_cons_of_mem _ ha)) hphase
      (fun act ha => hmove act (List.mem_cons_of_mem _ ha))
      _ _ (hmove act List.mem_cons_self _ _ _ _ _ _ hm hs)

end Follows

/-! ### What the linter sends -/

/-- A call of `lint` is answered with the verdict on the copy; other commands are not known. -/
theorem sent_command (w : Follower Unit) (name : String) (args : List Value) :
    (w.command linter name args).sent =
      if name = "lint" then
        (args.getLast?.bind Value.nat?).toList.map fun id => .call id (lintAnswer w.doc)
      else [unknownCommand name] := by
  unfold Follower.command
  by_cases hn : name = "lint"
  · subst hn
    cases args.getLast?.bind Value.nat? <;> rfl
  · have hcall : ¬ linter.isCall name = true := by simpa [linter] using hn
    rw [if_neg hcall, if_neg hn]
    simp [linter, hn, Turn.send]

/-- A change that cannot be read is noted. -/
theorem exists_note_of_mem_sent {w : Follower σ} {data : Value} {k : WorkerMessage}
    (hk : k ∈ (w.change data).sent) : ∃ text, k = .note text := by
  unfold Follower.change at hk
  split at hk
  · exact absurd hk List.not_mem_nil
  · exact ⟨_, List.mem_singleton.1 hk⟩

/-- Whether a message is a note or an answer, and no event. -/
def WorkerMessage.isAside : WorkerMessage → Bool
  | log _ | call .. => true
  | event .. => false

/-- Handling messages, the linter sends notes and answers. -/
theorem isAside_of_mem_sent {w : Follower Unit} {m : HostMessage} {k : WorkerMessage}
    (hk : k ∈ (w.handle linter m).sent) : k.isAside = true := by
  cases m with
  | init flag tlns module classname =>
    change k ∈ (linter.init w.state module classname tlns).2 at hk
    simp only [linter] at hk
    split at hk
    · exact absurd hk List.not_mem_nil
    · exact List.mem_singleton.1 hk ▸ rfl
  | command name args =>
    change k ∈ (if name = "setValue" then w.setValue args
      else w.command linter name args).sent at hk
    split at hk
    · obtain ⟨id, -, rfl⟩ := List.mem_map.1 hk
      rfl
    · rw [sent_command] at hk
      split at hk
      · obtain ⟨id, -, rfl⟩ := List.mem_map.1 hk
        rfl
      · exact List.mem_singleton.1 hk ▸ rfl
  | event name data =>
    change k ∈ (if name = "change" then w.change data else .send w []).sent at hk
    split at hk
    · obtain ⟨text, rfl⟩ := exists_note_of_mem_sent hk
      rfl
    · exact absurd hk List.not_mem_nil

end CodeEditing.Worker
