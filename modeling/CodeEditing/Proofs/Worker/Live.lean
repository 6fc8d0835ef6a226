import Mathlib.Logic.Basic
import CodeEditing.Worker.Exchange

/-! Clients that can talk to their worker.

A client is live (`Client.Live`) from the moment it is connected until it gives up or fails, and
each operation has one lemma that says what it does then; failing is for good (`Client.Failed`). -/
namespace CodeEditing.Worker

open Document (Delta Remark)
open Json (Value)

/-- No document is touched. -/
def Effect.Apart : Effect → Prop
  | .listen _ | .release _ => False
  | _ => True

/-- No document gets a listener. -/
def Effect.Unlistening : Effect → Prop
  | .listen _ => False
  | _ => True

/-- Neither a document nor the worker is touched. -/
def Effect.Quiet : Effect → Prop
  | .post _ => False
  | e => e.Apart

theorem Effect.Apart.unlistening {e : Effect} (h : e.Apart) : e.Unlistening := by
  cases e <;> trivial

theorem Effect.Quiet.apart {e : Effect} (h : e.Quiet) : e.Apart := by
  cases e <;> trivial

theorem posts_append (a b : List Effect) : posts (a ++ b) = posts a ++ posts b :=
  List.filterMap_append

theorem posts_map_post (f : α → HostMessage) (as : List α) :
    posts (as.map fun a => .post (f a)) = as.map f := by
  induction as with
  | nil => rfl
  | cons a as ih => exact congrArg (f a :: ·) ih

theorem posts_eq_nil {effects : List Effect} (h : ∀ e ∈ effects, e.Quiet) : posts effects = [] := by
  refine List.filterMap_eq_nil_iff.2 fun e he => ?_
  have := h e he
  cases e <;> first | rfl | exact this.elim

/-- A subscriber hears an event, or shows remarks, or warns. -/
theorem Subscriber.react_cases (s : Subscriber) (data : Value) :
    s.react data = .heard s.number data ∨ (∃ remarks, s.react data = .annotate remarks) ∨
      ∃ warning, s.react data = .warning warning := by
  unfold react
  cases s.handler with
  | hear => exact .inl rfl
  | clear => exact .inr (.inl ⟨_, rfl⟩)
  | mark =>
    cases Json.decodeValue Remark.record.decode data with
    | ok a => exact .inr (.inl ⟨_, rfl⟩)
    | error e => exact .inr (.inr ⟨_, rfl⟩)

theorem Subscriber.react_quiet (s : Subscriber) (data : Value) : (s.react data).Quiet := by
  rcases s.react_cases data with h | ⟨remarks, h⟩ | ⟨warning, h⟩ <;> rw [h] <;> trivial

namespace Client
variable {c : Client}

/-- There is a worker, it holds its end of the link, and the phase says whether a document is
attached. -/
structure Live (c : Client) : Prop where
  phase : c.phase = if c.attachment.isSome then .attached else .initializing
  link : ∃ inbox, c.link = some ⟨inbox, true⟩

/-- The client has failed. -/
def Failed (c : Client) : Prop := c.phase = .faulted

/-! ### Giving up -/

/-- A client that has given up the document, the calls that wait, and the link. -/
def lost (c : Client) (phase : Phase) : Client :=
  {c with phase, link := none, pending := [], attachment := none}

/-- The listener of the document attached is given up. -/
def releases (c : Client) : List Effect := c.attachment.toList.map .release

theorem unlistening_releases (c : Client) : ∀ e ∈ c.releases, e.Unlistening := by
  intro e he
  obtain ⟨a, -, rfl⟩ := List.mem_map.1 he
  trivial

theorem posts_releases (c : Client) : posts c.releases = [] := by
  unfold releases
  cases c.attachment <;> rfl

theorem failing_eq (c : Client) (reason : String) : c.failing (α := α) reason =
    ⟨c.lost .faulted, .error (.fault reason),
      .failure (Refusal.fault reason).message :: c.releases⟩ := by
  obtain ⟨config, phase, link, nextCall, pending, subscribers, nextSubscriber, attachment⟩ := c
  cases attachment <;> rfl

theorem terminate_eq (h : c.phase ≠ .terminated) : c.terminate =
    ⟨c.lost .terminated, (), c.notify "terminate" (.object []) ++ c.releases⟩ := by
  unfold terminate
  rw [if_neg h]
  obtain ⟨config, phase, link, nextCall, pending, subscribers, nextSubscriber, attachment⟩ := c
  cases attachment <;> rfl

/-- While the phase says whether a document is attached, giving it up releases its listener. -/
theorem detach_of_phase (h : c.phase = if c.attachment.isSome then .attached else .initializing) :
    c.detach = ⟨{c with attachment := none, phase := .initializing}, (), c.releases⟩ := by
  obtain ⟨config, phase, link, nextCall, pending, subscribers, nextSubscriber, attachment⟩ := c
  cases attachment <;> cases h <;> rfl

theorem notify_quiet (c : Client) (event : String) (data : Value) :
    ∀ e ∈ c.notify event data, e.Quiet := by
  intro e he
  obtain ⟨s, -, rfl⟩ := List.mem_map.1 he
  exact s.react_quiet data

/-- There is a worker, and it holds its end of the link. -/
def hasWorker (c : Client) : Bool := (c.link.map Link.farEnd).getD false

/-- What a listener of the document attached is told goes to the worker; other listeners have
nothing to say. -/
theorem forward_eq (c : Client) (doc : String) (listener : Nat) (delta : Delta) :
    c.forward doc listener delta =
      if c.hasWorker = true ∧ c.attachment = some ⟨doc, listener⟩ then [.post (.change delta)]
      else [] := by
  unfold forward hasWorker
  by_cases ha : c.attachment = some ⟨doc, listener⟩ <;> simp [ha]

/-- Among those who listen to a document one sends a change on, if it is the document attached. -/
theorem flatMap_forward (c : Client) (doc : String) {listeners : List Nat}
    (hn : listeners.Nodup) (delta : Delta) :
    listeners.flatMap (fun l => c.forward doc l delta) =
      if c.hasWorker = true ∧ ∃ l ∈ listeners, c.attachment = some ⟨doc, l⟩ then
        [.post (.change delta)]
      else [] := by
  induction listeners with
  | nil => simp
  | cons l ls ih =>
    obtain ⟨hl, hn⟩ := List.nodup_cons.1 hn
    rw [List.flatMap_cons, ih hn, forward_eq]
    by_cases ha : c.attachment = some ⟨doc, l⟩
    · have hls : ¬ (c.hasWorker = true ∧ ∃ k ∈ ls, c.attachment = some ⟨doc, k⟩) := by
        rintro ⟨-, k, hk, hak⟩
        rw [ha, Option.some.injEq, Attachment.mk.injEq] at hak
        exact hl (hak.2 ▸ hk)
      rw [if_neg hls, List.append_nil]
      exact if_congr (and_congr_right' (iff_of_true ha ⟨l, List.mem_cons_self, ha⟩)) rfl rfl
    · rw [if_neg fun h => ha h.2, List.nil_append]
      simp only [List.mem_cons, exists_eq_or_imp, ha, false_or]

namespace Live

theorem hasWorker (h : c.Live) : c.hasWorker = true := by
  obtain ⟨inbox, hl⟩ := h.link
  rw [Client.hasWorker, hl]
  rfl

theorem not_failed (h : c.Live) : c.phase ≠ .faulted := by
  rw [h.phase]
  split <;> decide

theorem liveLink (h : c.Live) : ∃ inbox, c.liveLink = .ok ⟨inbox, true⟩ := by
  obtain ⟨inbox, hl⟩ := h.link
  refine ⟨inbox, ?_⟩
  unfold Client.liveLink
  rw [h.phase, hl]
  cases c.attachment <;> rfl

theorem post (h : c.Live) (m : HostMessage) : c.post m = ⟨c, .ok (), [.post m]⟩ := by
  obtain ⟨inbox, hl⟩ := h.liveLink
  unfold Client.post
  rw [hl]
  rfl

/-- A call is one more that waits, and a message. -/
theorem call (h : c.Live) (command : String) (args : List Value) :
    c.call command args =
      ⟨{c with nextCall := c.nextCall + 1, pending := c.pending ++ [(c.nextCall, command)]},
        .ok c.nextCall, [.post (.call command args c.nextCall)]⟩ := by
  obtain ⟨inbox, hl⟩ := h.liveLink
  have hn : Live {c with
      nextCall := c.nextCall + 1, pending := c.pending ++ [(c.nextCall, command)]} :=
    ⟨h.phase, h.link⟩
  unfold Client.call
  rw [hl]
  dsimp only
  rw [hn.post]
  rfl

theorem detach (h : c.Live) : c.detach =
    ⟨{c with attachment := none, phase := .initializing}, (), c.releases⟩ :=
  detach_of_phase h.phase

theorem detached (h : c.Live) : Live {c with attachment := none, phase := .initializing} :=
  ⟨rfl, h.link⟩

/-- Attaching gives the old document up, sends the text of the new one, and listens to it. -/
theorem attach (h : c.Live) (doc : String) (text : List Char) (listener : Nat) :
    c.attach doc text listener =
      ⟨{c with attachment := some ⟨doc, listener⟩, phase := .attached}, .ok (),
        c.releases ++ [.post (.command "setValue" [.string (String.ofList text)]), .listen doc]⟩ := by
  obtain ⟨inbox, hl⟩ := h.liveLink
  unfold Client.attach
  rw [hl]
  dsimp only
  rw [h.detach, Client.send, h.detached.post]
  rfl

theorem attached (h : c.Live) (a : Attachment) :
    Live {c with attachment := some a, phase := .attached} :=
  ⟨rfl, h.link⟩

theorem receive (h : c.Live) (o : Output) : (c.receive o).Live := by
  obtain ⟨inbox, hl⟩ := h.link
  exact ⟨h.phase, inbox ++ [o], by rw [Client.receive, hl]; rfl⟩

end Live

/-! ### Failing is for good -/

namespace Failed

theorem liveLink (h : c.Failed) : c.liveLink = .error .faulted := by
  unfold Client.liveLink
  rw [h]

theorem post (h : c.Failed) (m : HostMessage) : (c.post m).client.Failed := by
  unfold Client.post
  rw [h.liveLink]
  exact h

theorem call (h : c.Failed) (command : String) (args : List Value) :
    (c.call command args).client.Failed := by
  unfold Client.call
  rw [h.liveLink]
  exact h

theorem emit (h : c.Failed) (event : String) (data : Except String Value) :
    (c.emit event data).client.Failed := by
  cases data with
  | ok data => exact h.post _
  | error e => exact h

theorem attach (h : c.Failed) (doc : String) (text : List Char) (listener : Nat) :
    (c.attach doc text listener).client.Failed := by
  unfold Client.attach
  rw [h.liveLink]
  exact h

theorem detach (h : c.Failed) : c.detach.client.Failed := by
  unfold Client.detach
  split
  · exact h
  · show (if c.phase = .attached then _ else c.phase) = _
    rw [h]
    rfl

theorem pump (h : c.Failed) : c.pump.client.Failed := by
  unfold Client.pump
  rw [if_pos (show c.phase = .faulted from h)]
  exact h

theorem pumpWaiting (h : c.Failed) : c.pumpWaiting.client.Failed := by
  unfold Client.pumpWaiting
  rw [if_pos (show c.phase = .faulted from h)]
  exact h

end Failed

end Client

end CodeEditing.Worker
