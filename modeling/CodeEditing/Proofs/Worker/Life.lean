import CodeEditing.Proofs.Document.Replay
import CodeEditing.Proofs.Worker.Tended
import CodeEditing.Proofs.Worker.Pumping

/-! The life of a client.

A life begins with a client that has started nothing, among documents of some texts. From then on
anything may happen in any order (`Deed`): operations of the host that go well, fail or are out of
place, a document that is being read while its listener ought to go, whatever the worker sends, and the
worker's end. All the while a client has a link and the calls that wait only in two of its phases
(`Client.Sound`), and so each deed does one of a few things (`Client.Passage`,
`Host.perform_passage`). -/
namespace CodeEditing.Worker

open Document (Revision TextDocument)
open Json (Value)

/-! ### Deeds -/

/-- What may happen to a host. -/
inductive Deed where
  /-- A worker is started, or cannot be. -/
  | start (started : Except String Link)
  /-- A worker is taken over that may have sent something before. -/
  | connect (link : Link)
  | attach (name : String)
  | detach
  | edit (name : String) (r : Revision)
  /-- A document is let go. -/
  | drop (name : String)
  | send (command : String) (args : List Value)
  | call (command : String) (args : List Value)
  | emit (event : String) (data : Except String Value)
  | subscribe (event : String) (handler : Handler)
  | unsubscribe (number : Nat)
  | bindRemarks
  | pump
  | pumpWaiting
  | terminate
  /-- The worker sends something. -/
  | receive (o : Output)
  /-- The worker lets its end of the link go. -/
  | loseWorker

/-- What comes from the worker. -/
def Deed.outputs : Deed → List Output
  | receive o => [o]
  | connect link | start (.ok link) => link.inbox
  | _ => []

/-- The subscribers of a client behind a deed. -/
def Deed.enrol (c : Client) : Deed → Client
  | subscribe event handler => (c.subscribe event handler).client
  | unsubscribe number => (c.unsubscribe number).client
  | bindRemarks => c.bindRemarks.client
  | _ => c

/-- The document attached is given up, if there is one. -/
def Deed.isLeaving : Deed → Bool
  | detach | terminate => true
  | _ => false

theorem Deed.ne_of_isLeaving {d : Deed} (h : d.isLeaving = false) : d ≠ detach ∧ d ≠ terminate := by
  cases d <;> first | exact ⟨Deed.noConfusion, Deed.noConfusion⟩ | cases h

theorem Deed.isLeaving_pump {d : Deed} (h : d = pump ∨ d = pumpWaiting) : d.isLeaving = false := by
  rcases h with rfl | rfl <;> rfl

/-- A deed and the document that is being read meanwhile. -/
structure Step where
  deed : Deed
  busy : Option String := none

/-- A host behind a deed, how the deed went – with the number of the call, if it was an accepted
one – and the effects in order. -/
structure Outcome where
  host : Host
  result : Except Refusal (Option Nat)
  effects : List Effect

/-- An operation of the host as a deed. -/
def Outcome.of (r : Host × α × List Effect) (result : α → Except Refusal (Option Nat)) : Outcome :=
  ⟨r.1, result r.2.1, r.2.2⟩

/-- What the client has to do with an outcome. -/
def Outcome.reaction (x : Outcome) : Attempt (Option Nat) := ⟨x.host.client, x.result, x.effects⟩

/-- The same with another result. -/
def Reaction.as (r : Reaction α) (g : α → β) : Reaction β := ⟨r.client, g r.result, r.effects⟩

/-- The result of an operation that is no call. -/
def uncalled (result : Except Refusal α) : Except Refusal (Option Nat) := result.map fun _ => none

namespace Host

def perform (h : Host) (s : Step) : Outcome :=
  match s.deed with
  | .start started => .of (h.act (·.launch started) s.busy) uncalled
  | .connect link => .of (h.act (·.adopt link) s.busy) uncalled
  | .attach name => .of (h.attach name s.busy) uncalled
  | .detach => .of (h.act Client.detach s.busy) fun _ => .ok none
  | .edit name r => .of (h.edit name (r.make ·)) fun _ => .ok none
  | .drop name => ⟨(h.dropDoc name).1, .ok none, []⟩
  | .send command args => .of (h.act (·.send command args) s.busy) uncalled
  | .call command args => .of (h.act (·.call command args) s.busy) (·.map some)
  | .emit event data => .of (h.act (·.emit event data) s.busy) uncalled
  | .subscribe event handler => .of (h.act (·.subscribe event handler) s.busy) fun _ => .ok none
  | .unsubscribe number => .of (h.act (·.unsubscribe number) s.busy) fun _ => .ok none
  | .bindRemarks => .of (h.act Client.bindRemarks s.busy) fun _ => .ok none
  | .pump => .of (h.act Client.pump s.busy) uncalled
  | .pumpWaiting => .of (h.act Client.pumpWaiting s.busy) uncalled
  | .terminate => .of (h.act Client.terminate s.busy) fun _ => .ok none
  | .receive o => ⟨{h with client := h.client.receive o}, .ok none, []⟩
  | .loseWorker => ⟨{h with client := h.client.loseWorker}, .ok none, []⟩

/-- A host that has started nothing, and its documents. -/
def fresh (config : Config) (docs : List (String × List Char)) : Host :=
  ⟨.ofConfig config, docs.map fun (name, text) => (name, .ofText text)⟩

def run (h : Host) (steps : List Step) : Host := steps.foldl (fun h s => (h.perform s).host) h

/-- All that is done beyond the host, in order. -/
def effects (h : Host) : List Step → List Effect
  | [] => []
  | s :: steps => (h.perform s).effects ++ effects (h.perform s).host steps

theorem effects_append (h : Host) (a b : List Step) :
    h.effects (a ++ b) = h.effects a ++ (h.run a).effects b := by
  induction a generalizing h with
  | nil => rfl
  | cons s a ih =>
    rw [List.cons_append, effects, ih, ← List.append_assoc]
    rfl

end Host

/-! ### Links and phases -/

/-- There is a worker to talk to, or there was one until it let its end go. -/
def Phase.isLinked : Phase → Bool
  | initializing | attached => true
  | uninitialized | terminated | faulted => false

/-- Refused for what the client is, before anything is done. -/
def Refusal.isOutright : Refusal → Bool
  | faulted | misplaced _ => true
  | spawn .. | fault _ => false

namespace Client
variable {c : Client} {l : Link}

/-- There is a link in two of the phases, and a document attached in one of them. Calls wait only
while there is a link. -/
structure Sound (c : Client) : Prop where
  link : c.link.isSome = c.phase.isLinked
  attachment : c.attachment.isSome ↔ c.phase = .attached
  pending : c.pending ≠ [] → c.phase.isLinked

theorem Sound.ofConfig (config : Config) : (ofConfig config).Sound :=
  ⟨rfl, by simp [Client.ofConfig], by simp [Client.ofConfig]⟩

/-- There is a link, and the phase says whether a document is attached. -/
structure Linked (c : Client) (l : Link) : Prop where
  link : c.link = some l
  phase : c.phase = if c.attachment.isSome then .attached else .initializing

/-- There is no link, and nothing that needs one. -/
structure Unlinked (c : Client) : Prop where
  link : c.link = none
  attachment : c.attachment = none
  pending : c.pending = []
  phase : c.phase.isLinked = false

theorem Sound.unattached (h : c.Sound) (hp : c.phase ≠ .attached) : c.attachment = none :=
  Option.not_isSome_iff_eq_none.1 fun hs => hp (h.attachment.1 hs)

theorem Sound.cases (h : c.Sound) : c.Unlinked ∨ ∃ l, c.Linked l := by
  have hlink := h.link
  have hatt := h.attachment
  cases hp : c.phase.isLinked with
  | false =>
    rw [hp] at hlink
    refine .inl ⟨Option.isSome_eq_false_iff.1 hlink |> Option.isNone_iff_eq_none.1, ?_, ?_, hp⟩
    · refine h.unattached fun hatt => ?_
      rw [hatt] at hp
      cases hp
    · refine Decidable.by_contra fun hne => ?_
      have := h.pending hne
      rw [hp] at this
      cases this
  | true =>
    rw [hp] at hlink
    obtain ⟨l, hl⟩ := Option.isSome_iff_exists.1 hlink
    refine .inr ⟨l, hl, ?_⟩
    by_cases hs : c.attachment.isSome
    · rw [if_pos hs, hatt.1 hs]
    · rw [if_neg hs]
      cases hphase : c.phase with
      | initializing => rfl
      | attached => exact absurd (hatt.2 hphase) hs
      | uninitialized | terminated | faulted => rw [hphase] at hp; cases hp

theorem Live.linked (h : c.Live) : ∃ l, c.Linked l :=
  have ⟨_, hl⟩ := h.link
  ⟨_, hl, h.phase⟩

namespace Linked

theorem isLinked (h : c.Linked l) : c.phase.isLinked = true := by
  rw [h.phase]
  split <;> rfl

theorem sound (h : c.Linked l) : c.Sound where
  link := by rw [h.link, h.isLinked]; rfl
  attachment := by
    rw [h.phase]
    split <;> simp_all
  pending _ := h.isLinked

theorem live (h : c.Linked l) (hend : l.farEnd = true) : c.Live := by
  obtain ⟨inbox, farEnd⟩ := l
  exact ⟨h.phase, inbox, hend ▸ h.link⟩

theorem liveLink (h : c.Linked l) : c.liveLink = .ok l := by
  unfold Client.liveLink
  rw [h.phase, h.link]
  cases c.attachment <;> rfl

/-- Nothing can be sent once the worker has let its end go. -/
theorem post_lost (h : c.Linked l) (hend : l.farEnd = false) (m : HostMessage) :
    c.post m = c.failing "worker channel closed" := by
  unfold Client.post
  rw [h.liveLink]
  dsimp only
  rw [if_neg (by simp [hend])]

end Linked

theorem Live.isLinked (h : c.Live) : c.phase.isLinked = true :=
  have ⟨_, hl⟩ := h.linked
  hl.isLinked

theorem Live.sound (h : c.Live) : c.Sound :=
  have ⟨_, hl⟩ := h.linked
  hl.sound

namespace Unlinked

theorem sound (h : c.Unlinked) : c.Sound where
  link := by rw [h.link, h.phase]; rfl
  attachment := by
    refine ⟨fun ha => ?_, fun hp => ?_⟩
    · rw [h.attachment] at ha
      cases ha
    · have := h.phase
      rw [hp] at this
      cases this
  pending hne := absurd h.pending hne

theorem liveLink (h : c.Unlinked) :
    ∃ e : Refusal, e.isOutright = true ∧ c.liveLink = .error e := by
  have hp := h.phase
  unfold Client.liveLink
  cases hphase : c.phase with
  | initializing | attached => rw [hphase] at hp; cases hp
  | uninitialized | terminated => exact ⟨_, rfl, rfl⟩
  | faulted => exact ⟨_, rfl, rfl⟩

/-- Giving up what is not there changes the phase at most. -/
theorem lost (h : c.Unlinked) (phase : Phase) : c.lost phase = {c with phase} := by
  rw [Client.lost, ← h.link, ← h.pending, ← h.attachment]

end Unlinked

theorem expectFresh_cases (c : Client) : c.phase = .uninitialized ∧ c.expectFresh = .ok () ∨
    ∃ e : Refusal, e.isOutright = true ∧ c.expectFresh = .error e := by
  unfold expectFresh
  cases c.phase with
  | uninitialized => exact .inl ⟨rfl, rfl⟩
  | faulted => exact .inr ⟨_, rfl, rfl⟩
  | initializing | attached | terminated => exact .inr ⟨_, rfl, rfl⟩

theorem unlinked_lost (c : Client) {phase : Phase} (hp : phase.isLinked = false) :
    (c.lost phase).Unlinked :=
  ⟨rfl, rfl, rfl, hp⟩

end Client

/-! ### What a deed can do -/

/-- A message to the worker, or word of one that is not sent. -/
def Effect.Sent : Effect → Prop
  | .post _ | .warning _ => True
  | _ => False

/-- What is seen of a client that fails. -/
def Effect.Parting : Effect → Prop
  | .release _ | .failure _ => True
  | _ => False

namespace Client
variable {c : Client}

theorem parting_releases (c : Client) : ∀ e ∈ c.releases, e.Parting := by
  intro e he
  obtain ⟨a, -, rfl⟩ := List.mem_map.1 he
  trivial

/-- What a deed can do with a client. -/
inductive Passage (c : Client) : Deed → Attempt (Option Nat) → Prop
  /-- It is refused. -/
  | refused {d : Deed} {e : Refusal} (hd : d.isLeaving = false) (he : e.isOutright = true) :
    Passage c d ⟨c, .error e, []⟩
  /-- A worker is taken over. -/
  | adopts {d : Deed} {l : Link} (hd : d.isLeaving = false) (hp : c.phase = .uninitialized)
    (hinbox : d.outputs = l.inbox) :
    Passage c d ⟨{c with link := some l, phase := .initializing}, .ok none,
      [.post (.ofConfig c.config)]⟩
  /-- The client fails; a call may have used up its number. -/
  | fails {d : Deed} {e : Refusal} {effects : List Effect} (next : Nat) (hd : d.isLeaving = false)
    (hp : c.phase = .uninitialized ∨ c.phase.isLinked) (he : e.isOutright = false)
    (heffects : ∀ e ∈ effects, e.Parting) :
    Passage c d ⟨{c.lost .faulted with nextCall := next}, .error e, effects⟩
  /-- All that waits is handled. -/
  | pumps {d : Deed} {ms : List WorkerMessage} (hd : d = .pump ∨ d = .pumpWaiting)
    (hlive : c.Live) (hms : c.inbox = ms.map .message) :
    Passage c d ⟨c.pumped ms, .ok none, c.reactions ms⟩
  /-- Some of what waits is handled, and then the client fails. -/
  | breaks {d : Deed} {ms : List WorkerMessage} {rest : List Output} {reason : String}
    (hd : d = .pump ∨ d = .pumpWaiting) (hp : c.phase.isLinked)
    (hms : c.inbox = ms.map .message ++ rest) :
    Passage c d ⟨c.lost .faulted, .error (.fault reason),
      c.reactions ms ++ .failure (Refusal.fault reason).message :: c.releases⟩
  /-- A document is attached. -/
  | attaches {name : String} {text : List Char} {listener : Nat} (hlive : c.Live) :
    Passage c (.attach name)
      ⟨{c with attachment := some ⟨name, listener⟩, phase := .attached}, .ok none,
        c.releases ++ [.post (.command "setValue" [.string (String.ofList text)]), .listen name]⟩
  /-- The document attached is given up. -/
  | leaves {l : Link} (hlinked : c.Linked l) :
    Passage c .detach
      ⟨{c with attachment := none, phase := .initializing}, .ok none, c.releases⟩
  /-- A call is made. -/
  | calls {command : String} {args : List Value} (hlive : c.Live) :
    Passage c (.call command args)
      ⟨{c with nextCall := c.nextCall + 1, pending := c.pending ++ [(c.nextCall, command)]},
        .ok (some c.nextCall), [.post (.call command args c.nextCall)]⟩
  /-- The worker is given up. -/
  | terminates (hp : c.phase ≠ .terminated) :
    Passage c .terminate ⟨c.lost .terminated, .ok none,
      c.notify "terminate" (.object []) ++ c.releases⟩
  /-- Messages are sent, subscribers come and go, or the worker does something. -/
  | keeps {d : Deed} (link : Option Link) {effects : List Effect}
    (hend : d = .terminate → c.phase = .terminated) (hleft : d = .detach → c.attachment = none)
    (hlink : link.isSome = c.link.isSome)
    (hinbox : ∀ o ∈ (link.map Link.inbox).getD [], o ∈ c.inbox ∨ o ∈ d.outputs)
    (heffects : ∀ e ∈ effects, e.Sent) :
    Passage c d ⟨{d.enrol c with link}, .ok none, effects⟩

variable {l : Link} {d : Deed}

/-- Subscribers come and go, or the worker does something. -/
theorem Passage.stays (hd : d.isLeaving = false) {link : Option Link} {effects : List Effect}
    (hlink : link.isSome = c.link.isSome)
    (hinbox : ∀ o ∈ (link.map Link.inbox).getD [], o ∈ c.inbox ∨ o ∈ d.outputs)
    (heffects : ∀ e ∈ effects, e.Sent) :
    Passage c d ⟨{d.enrol c with link}, .ok none, effects⟩ := by
  obtain ⟨hdetach, hterminate⟩ := Deed.ne_of_isLeaving hd
  exact .keeps link (fun ht => absurd ht hterminate) (fun ht => absurd ht hdetach) hlink hinbox
    heffects

/-- Nothing changes. -/
theorem Passage.still (hd : d.isLeaving = false) (hc : d.enrol c = c) {effects : List Effect}
    (he : ∀ e ∈ effects, e.Sent) : Passage c d ⟨c, .ok none, effects⟩ := by
  have h : Passage c d ⟨{d.enrol c with link := c.link}, .ok none, effects⟩ :=
    .stays hd rfl (fun o ho => .inl ho) he
  rwa [hc] at h

/-- The link changes, if there is one. -/
theorem Passage.relinks (hd : d.isLeaving = false) (hc : d.enrol c = c) {f : Link → Link}
    (hf : ∀ l, ∀ o ∈ (f l).inbox, o ∈ l.inbox ∨ o ∈ d.outputs) :
    Passage c d ⟨{c with link := c.link.map f}, .ok none, []⟩ := by
  have h : Passage c d ⟨{d.enrol c with link := c.link.map f}, .ok none, []⟩ := by
    refine .stays hd Option.isSome_map (fun o ho => ?_) fun e he => absurd he List.not_mem_nil
    unfold inbox
    cases hl : c.link with
    | none =>
      rw [hl] at ho
      exact absurd ho List.not_mem_nil
    | some l =>
      rw [hl] at ho
      exact hf l o ho
  rwa [hc] at h

theorem Passage.failing (hd : d.isLeaving = false) (hp : c.phase.isLinked) {next : Nat}
    {pending : List (Nat × String)} {reason : String}
    (g : Except Refusal α → Except Refusal (Option Nat)) (hg : ∀ e, g (.error e) = .error e) :
    Passage c d ((Client.failing {c with nextCall := next, pending} reason).as g) := by
  rw [failing_eq, Reaction.as, hg]
  exact .fails next hd (.inr hp) rfl fun e he =>
    (List.mem_cons.1 he).elim (fun h => h ▸ trivial) (c.parting_releases e)

/-- A message goes to the worker, if it is there. -/
theorem Sound.post_passage (h : c.Sound) (hd : d.isLeaving = false) (hc : d.enrol c = c)
    (m : HostMessage) : Passage c d ((c.post m).as uncalled) := by
  rcases h.cases with h | ⟨l, h⟩
  · obtain ⟨e, he, hl⟩ := h.liveLink
    rw [post, hl]
    exact .refused hd he
  · cases hend : l.farEnd with
    | true =>
      rw [(h.live hend).post]
      exact .still hd hc fun e he => List.mem_singleton.1 he ▸ trivial
    | false =>
      rw [h.post_lost hend]
      exact .failing hd h.isLinked uncalled fun _ => rfl

theorem Sound.call_passage (h : c.Sound) (command : String) (args : List Value) :
    Passage c (.call command args) ((c.call command args).as (·.map some)) := by
  rcases h.cases with h | ⟨l, h⟩
  · obtain ⟨e, he, hl⟩ := h.liveLink
    rw [call, hl]
    exact .refused rfl he
  · cases hend : l.farEnd with
    | true =>
      rw [(h.live hend).call]
      exact .calls (h.live hend)
    | false =>
      -- the call waits when the message turns out to be lost
      have hcalled : Linked {c with
          nextCall := c.nextCall + 1, pending := c.pending ++ [(c.nextCall, command)]} l :=
        ⟨h.link, h.phase⟩
      have hcall : c.call command args = Client.failing {c with
          nextCall := c.nextCall + 1, pending := c.pending ++ [(c.nextCall, command)]}
          "worker channel closed" := by
        rw [call, h.liveLink]
        dsimp only
        rw [hcalled.post_lost hend, failing_eq, failing_eq]
        rfl
      rw [hcall]
      exact .failing rfl h.isLinked _ fun _ => rfl

/-- Attaching goes well, is refused, or makes the client fail. -/
theorem Sound.attach_cases (h : c.Sound) (name : String) (text : List Char) (listener : Nat) :
    (c.Live ∧ c.attach name text listener =
        ⟨{c with attachment := some ⟨name, listener⟩, phase := .attached}, .ok (),
          c.releases ++
            [.post (.command "setValue" [.string (String.ofList text)]), .listen name]⟩) ∨
      (∃ e : Refusal, e.isOutright = true ∧ c.attach name text listener = ⟨c, .error e, []⟩) ∨
      ∃ reason, c.phase.isLinked = true ∧ c.attach name text listener =
        ⟨c.lost .faulted, .error (.fault reason),
          c.releases ++ [.failure (Refusal.fault reason).message]⟩ := by
  rcases h.cases with h | ⟨l, h⟩
  · obtain ⟨e, he, hl⟩ := h.liveLink
    refine .inr (.inl ⟨e, he, ?_⟩)
    rw [attach, hl]
  · cases hend : l.farEnd with
    | true => exact .inl ⟨h.live hend, (h.live hend).attach name text listener⟩
    | false =>
      -- the old document is given up before the message turns out to be lost
      have hleft : Linked {c with attachment := none, phase := .initializing} l := ⟨h.link, rfl⟩
      refine .inr (.inr ⟨"worker channel closed", h.isLinked, ?_⟩)
      rw [attach, h.liveLink]
      dsimp only
      rw [detach_of_phase h.phase, send, hleft.post_lost hend, failing_eq]
      rfl

theorem Sound.attach_passage (h : c.Sound) (name : String) (text : List Char) (listener : Nat) :
    Passage c (.attach name) ((c.attach name text listener).as uncalled) := by
  rcases h.attach_cases name text listener with ⟨hlive, hc⟩ | ⟨e, he, hc⟩ | ⟨reason, hp, hc⟩
  · rw [hc]
    exact .attaches hlive
  · rw [hc]
    exact .refused rfl he
  · rw [hc]
    refine .fails c.nextCall rfl (.inr hp) rfl fun e he => ?_
    rcases List.mem_append.1 he with he | he
    · exact c.parting_releases e he
    · exact List.mem_singleton.1 he ▸ trivial

theorem Sound.detach_passage (h : c.Sound) : Passage c .detach (c.detach.as fun _ => .ok none) := by
  rcases h.cases with h | ⟨l, h⟩
  · rw [detach, h.attachment]
    exact .keeps c.link (fun hd => Deed.noConfusion hd) (fun _ => h.attachment) rfl
      (fun o ho => .inl ho) fun e he => absurd he List.not_mem_nil
  · rw [detach_of_phase h.phase]
    exact .leaves h

/-- A worker is taken over by a client that has started nothing. -/
theorem Sound.adopt_passage (h : c.Sound) (hd : d.isLeaving = false) {link : Link}
    (hout : d.outputs = link.inbox) : Passage c d ((c.adopt link).as uncalled) := by
  unfold adopt
  rcases c.expectFresh_cases with ⟨hp, he⟩ | ⟨e, hout, he⟩
  · rw [he]
    dsimp only
    have hatt := h.unattached (by rw [hp]; decide)
    have hadopted : Linked {c with link := some link, phase := .initializing} link :=
      ⟨rfl, by rw [hatt]; rfl⟩
    cases hend : link.farEnd with
    | true =>
      rw [(hadopted.live hend).post]
      exact .adopts hd hp hout
    | false =>
      rw [hadopted.post_lost hend, failing_eq]
      exact .fails c.nextCall hd (.inl hp) rfl fun e he =>
        (List.mem_cons.1 he).elim (fun h => h ▸ trivial) (c.parting_releases e)
  · rw [he]
    exact .refused hd hout

theorem Sound.launch_passage (h : c.Sound) (started : Except String Link) :
    Passage c (.start started) ((c.launch started).as uncalled) := by
  cases started with
  | ok link =>
    have hlaunch : c.launch (.ok link) = c.adopt link := by
      unfold launch adopt
      cases c.expectFresh <;> rfl
    rw [hlaunch]
    exact h.adopt_passage rfl rfl
  | error reason =>
    unfold launch
    rcases c.expectFresh_cases with ⟨hp, he⟩ | ⟨e, hout, he⟩
    · have hunlinked : c.Unlinked := h.cases.resolve_right fun ⟨l, hl⟩ => by
        have := hl.isLinked
        rw [hp] at this
        cases this
      rw [he]
      dsimp only
      rw [← hunlinked.lost]
      exact .fails c.nextCall rfl (.inl hp) rfl fun e he =>
        List.mem_singleton.1 he ▸ trivial
    · rw [he]
      exact .refused rfl hout

theorem Sound.pump_passage (h : c.Sound) (hd : d = .pump ∨ d = .pumpWaiting) :
    Passage c d (c.pump.as uncalled) := by
  have hnot := Deed.isLeaving_pump hd
  by_cases hp : c.phase = .faulted
  · rw [pump, if_pos hp]
    exact .refused hnot rfl
  · rcases h.cases with h | ⟨l, h⟩
    · rw [pump, if_neg hp, h.link]
      refine .still hnot ?_ fun e he => absurd he List.not_mem_nil
      rcases hd with rfl | rfl <;> rfl
    · have hinbox : c.inbox = l.inbox := by rw [inbox, h.link]; rfl
      have hpump := pump_pumping h.link hp
      rw [← hinbox] at hpump
      generalize c.pump = r at hpump
      cases hpump with
      | well ms hms hend => exact .pumps hd (h.live hend) hms
      | fails ms hms hend => exact .breaks hd h.isLinked hms

theorem terminate_passage (c : Client) :
    Passage c .terminate (c.terminate.as fun _ => .ok none) := by
  by_cases hp : c.phase = .terminated
  · rw [terminate, if_pos hp]
    exact .keeps c.link (fun _ => hp) (fun hd => Deed.noConfusion hd) rfl (fun o ho => .inl ho)
      fun e he => absurd he List.not_mem_nil
  · rw [terminate_eq hp]
    exact .terminates hp

theorem forward_sent (c : Client) (doc : String) (listener : Nat) (delta : Document.Delta) :
    ∀ e ∈ c.forward doc listener delta, e.Sent := by
  unfold forward
  split
  · exact fun e he => List.mem_singleton.1 he ▸ trivial
  · exact fun e he => absurd he List.not_mem_nil

/-! ### In order all its life -/

theorem enrol_eq (c : Client) (d : Deed) : ∃ subscribers nextSubscriber,
    d.enrol c = {c with subscribers, nextSubscriber} := by
  cases d <;> exact ⟨_, _, rfl⟩

theorem Passage.sound (h : c.Sound) (hr : Passage c d r) : r.client.Sound := by
  cases hr with
  | refused hd he => exact h
  | adopts hd hp hinbox =>
    have hatt := h.unattached (by rw [hp]; decide)
    exact Linked.sound ⟨rfl, by rw [hatt]; rfl⟩
  | fails next hd hp he heffects => exact Unlinked.sound ⟨rfl, rfl, rfl, rfl⟩
  | pumps hd hlive hms => exact Linked.sound ⟨rfl, hlive.phase⟩
  | breaks hd hp hms => exact (c.unlinked_lost rfl).sound
  | attaches hlive => exact (hlive.attached _).sound
  | leaves hlinked => exact Linked.sound ⟨hlinked.link, rfl⟩
  | calls hlive => exact Live.sound ⟨hlive.phase, hlive.link⟩
  | terminates hp => exact (c.unlinked_lost rfl).sound
  | keeps link hend hleft hlink hinbox heffects =>
    obtain ⟨subscribers, nextSubscriber, hc⟩ := c.enrol_eq d
    rw [hc]
    exact ⟨hlink.trans h.link, h.attachment, h.pending⟩

end Client

namespace Host

theorem reaction_act (h : Host) (f : Client → Reaction α) (busy : Option String)
    (g : α → Except Refusal (Option Nat)) :
    (Outcome.of (h.act f busy) g).reaction = (f h.client).as g := by
  rw [Outcome.reaction, Outcome.of, act_client]
  rfl

/-- What every deed can do. -/
theorem perform_passage {h : Host} (hc : h.client.Sound) (s : Step) :
    h.client.Passage s.deed (h.perform s).reaction := by
  obtain ⟨deed, busy⟩ := s
  have hnone : ∀ e ∈ ([] : List Effect), e.Sent := fun e he => absurd he List.not_mem_nil
  unfold perform
  cases deed with
  | start started => exact reaction_act .. ▸ hc.launch_passage started
  | connect link => exact reaction_act .. ▸ hc.adopt_passage rfl rfl
  | attach name =>
    dsimp only
    rw [Host.attach]
    cases hd : h.doc? name with
    | none => exact .still rfl rfl hnone
    | some d => exact reaction_act .. ▸ hc.attach_passage name d.value d.nextListener
  | detach => exact reaction_act .. ▸ hc.detach_passage
  | edit name r =>
    dsimp only
    rw [Host.edit]
    cases hd : h.doc? name with
    | none => exact .still rfl rfl hnone
    | some d =>
      refine .still rfl rfl fun e he => ?_
      obtain ⟨t, -, he⟩ := List.mem_flatMap.1 he
      exact h.client.forward_sent name t.1 t.2 e he
  | drop name => exact .still rfl rfl hnone
  | send command args => exact reaction_act .. ▸ hc.post_passage rfl rfl _
  | call command args => exact reaction_act .. ▸ hc.call_passage command args
  | emit event data =>
    cases data with
    | ok data => exact reaction_act .. ▸ hc.post_passage rfl rfl _
    | error e =>
      rw [reaction_act]
      exact .still rfl rfl fun e he => List.mem_singleton.1 he ▸ trivial
  | subscribe event handler => exact reaction_act .. ▸ .stays rfl rfl (fun o ho => .inl ho) hnone
  | unsubscribe number => exact reaction_act .. ▸ .stays rfl rfl (fun o ho => .inl ho) hnone
  | bindRemarks => exact reaction_act .. ▸ .stays rfl rfl (fun o ho => .inl ho) hnone
  | pump => exact reaction_act .. ▸ hc.pump_passage (.inl rfl)
  | pumpWaiting =>
    rw [reaction_act, Client.pumpWaiting_eq]
    exact hc.pump_passage (.inr rfl)
  | terminate => exact reaction_act .. ▸ h.client.terminate_passage
  | receive o => exact .relinks rfl rfl fun l p hp => List.mem_append.1 hp
  | loseWorker => exact .relinks rfl rfl fun l p hp => .inl hp

/-- A client is in order all its life. -/
theorem run_sound {h : Host} (hc : h.client.Sound) (steps : List Step) :
    (h.run steps).client.Sound := by
  induction steps generalizing h with
  | nil => exact hc
  | cons s steps ih => exact ih ((perform_passage hc s).sound hc)

end Host

end CodeEditing.Worker
