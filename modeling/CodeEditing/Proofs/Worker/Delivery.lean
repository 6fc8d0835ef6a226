import CodeEditing.Proofs.Worker.Phases

/-! What comes from a worker is handled in order, and nothing behind its end.

`Delivers` tells what handling messages comes to: a note goes to the log, an event to those who have
subscribed to it, an answer to the call that waits for it. Pumping does that with the messages in front
of the first word that the worker has broken down or is at its end (`reactions_delivers`). Subscribers
stand in the order in which they came (`Client.Ranked`), and a client that has failed never has
anything to pump again (`Host.run_idle`). `Host.pump_delivers` says all this of every life in which
there is a link, wherever the client fails in what waits, and that waiting for the first message makes
no difference. -/
namespace CodeEditing.Worker

open Json (Value)

/-! ### Handling messages -/

/-- What handling messages comes to, with the calls that wait before and behind. -/
inductive Delivers (subscribers : List Subscriber) :
    List (Nat × String) → List WorkerMessage → List (Nat × String) → List Effect → Prop
  | nil {pending : List (Nat × String)} : Delivers subscribers pending [] pending []
  | log {pending left : List (Nat × String)} {ms : List WorkerMessage} {effects : List Effect}
    (data : Value) (h : Delivers subscribers pending ms left effects) :
    Delivers subscribers pending (.log data :: ms) left (.remote (Client.noteText data) :: effects)
  /-- Those who have subscribed to an event hear of it, in the order in which they came. -/
  | event {pending left : List (Nat × String)} {ms : List WorkerMessage} {effects : List Effect}
    (name : String) (data : Value) (h : Delivers subscribers pending ms left effects) :
    Delivers subscribers pending (.event name data :: ms) left
      ((subscribers.filter (·.event = name)).map (·.react data) ++ effects)
  /-- A call that waits gets its answer, and waits no more. -/
  | answer {pending left : List (Nat × String)} {ms : List WorkerMessage} {effects : List Effect}
    {id : Nat} {command : String} (data : Value) (hcall : pending.lookup id = some command)
    (h : Delivers subscribers (pending.filter (·.1 ≠ id)) ms left effects) :
    Delivers subscribers pending (.call id data :: ms) left
      (@Effect.answered id command data :: effects)
  | unknown {pending left : List (Nat × String)} {ms : List WorkerMessage} {effects : List Effect}
    {id : Nat} (data : Value) (hcall : pending.lookup id = none)
    (h : Delivers subscribers pending ms left effects) :
    Delivers subscribers pending (.call id data :: ms) left effects

namespace Client
variable {c : Client} {d : Deed} {r : Attempt (Option Nat)}

theorem reactions_delivers (c : Client) (ms : List WorkerMessage) :
    Delivers c.subscribers c.pending ms (ms.foldl settled c.pending) (c.reactions ms) := by
  induction ms generalizing c with
  | nil => exact .nil
  | cons m ms ih =>
    have hmore := ih {c with pending := settled c.pending m}
    cases m with
    | log data => exact .log data hmore
    | event name data =>
      have hnotified : c.notify name data =
          (c.subscribers.filter (·.event = name)).map (·.react data) := by
        unfold notify
        simp only [beq_eq_decide]
      rw [reactions, show c.reaction (.event name data) = c.notify name data from rfl, hnotified]
      exact .event name data hmore
    | call id data =>
      have hfilter : c.pending.filter (·.1 != id) = c.pending.filter (·.1 ≠ id) := by
        simp only [bne, beq_eq_decide, decide_not]
      cases hcall : c.pending.lookup id with
      | some command =>
        have hreaction : c.reaction (.call id data) = [@Effect.answered id command data] := by
          rw [reaction_call, hcall]
          rfl
        rw [reactions, hreaction]
        rw [settled, hfilter] at hmore
        exact .answer data hcall (hfilter ▸ hmore)
      | none =>
        have hreaction : c.reaction (.call id data) = [] := by
          rw [reaction_call, hcall]
          rfl
        have hsettled : settled c.pending (.call id data) = c.pending :=
          filter_of_lookup_eq_none hcall
        rw [reactions, hreaction, List.nil_append, List.foldl_cons]
        rw [hsettled] at hmore ⊢
        exact .unknown data hcall hmore

/-- What waits at a link is handled up to what makes the client fail. -/
theorem Sound.pump_eq (h : c.Sound) {l : Link} (hl : c.link = some l) : c.pump =
    match breach? l.farEnd l.inbox with
    | none => ⟨c.pumped (messagesAhead l.inbox), .ok l.inbox.length,
        c.reactions (messagesAhead l.inbox)⟩
    | some reason => ⟨c.lost .faulted, .error (.fault reason),
        c.reactions (messagesAhead l.inbox) ++
          .failure (Refusal.fault reason).message :: c.releases⟩ := by
  have hnot : c.phase ≠ .faulted := by
    have hlink := h.link
    rw [hl] at hlink
    intro hp
    rw [hp] at hlink
    cases hlink
  have hpump : c.pump = c.pumpAll l.farEnd 0 l.inbox := by rw [pump, if_neg hnot, hl]
  have hall := pumpAll_eq (c := c) hl 0
  rw [Nat.zero_add] at hall
  exact hpump.trans hall

/-! ### The order of the subscribers -/

/-- Subscribers have numbers in the order in which they came, below the next one. -/
structure Ranked (c : Client) : Prop where
  order : (c.subscribers.map Subscriber.number).Pairwise (· < ·)
  below : ∀ s ∈ c.subscribers, s.number < c.nextSubscriber

theorem Ranked.subscribe (h : c.Ranked) (event : String) (handler : Handler) :
    (c.subscribe event handler).client.Ranked where
  order := by
    show ((c.subscribers ++ [_]).map _).Pairwise _
    rw [List.map_append, List.pairwise_append]
    refine ⟨h.order, List.pairwise_singleton _ _, fun n hn m hm => ?_⟩
    obtain ⟨s, hs, rfl⟩ := List.mem_map.1 hn
    obtain rfl := List.mem_singleton.1 hm
    exact h.below s hs
  below := below_concat (a := ⟨c.nextSubscriber, event, handler⟩) Subscriber.number h.below

theorem Ranked.enrol (h : c.Ranked) (d : Deed) : (d.enrol c).Ranked := by
  cases d with
  | subscribe event handler => exact h.subscribe event handler
  | unsubscribe number =>
    have hfewer : (c.unsubscribe number).client.subscribers.Sublist c.subscribers :=
      List.filter_sublist
    exact ⟨h.order.sublist (hfewer.map _), fun s hs => h.below s (hfewer.subset hs)⟩
  | bindRemarks => exact (h.subscribe "error" .mark).subscribe "ok" .clear
  | _ => exact h

theorem Passage.ranked (h : c.Ranked) (hr : Passage c d r) : r.client.Ranked := by
  cases hr with
  | keeps link hend hleft hlink hinbox heffects => exact ⟨(h.enrol d).order, (h.enrol d).below⟩
  | _ => exact ⟨h.order, h.below⟩

/-! ### Behind the end -/

/-- The client has failed or has been given up. -/
def Spent (c : Client) : Prop := c.phase = .faulted ∨ c.phase = .terminated

theorem Passage.spent (hs : c.Spent) (hr : Passage c d r) : r.client.Spent := by
  have hunlinked : c.phase.isLinked = false := by
    rcases hs with hp | hp <;> rw [hp] <;> rfl
  rcases hr.phase with hp | hp
  · rw [Spent, hp]
    exact hs
  · unfold Spent at *
    generalize c.phase = p at hs hunlinked hp
    generalize r.client.phase = q at hp
    cases hp with
    | fails h => exact .inl rfl
    | ends h => exact .inr rfl
    | starts => rcases hs with h | h <;> cases h
    | attaches => cases hunlinked
    | leaves => cases hunlinked

/-- Pumping where there is nothing to pump: it is refused, but for a client that has been given up. -/
def idle (c : Client) : Attempt Nat :=
  ⟨c, if c.phase = .terminated then .ok 0 else .error .faulted, []⟩

namespace Spent

theorem unlinked (hs : c.Spent) (h : c.Sound) : c.Unlinked := by
  refine h.cases.resolve_right fun ⟨l, hl⟩ => ?_
  have := hl.isLinked
  rcases hs with hp | hp <;> rw [hp] at this <;> cases this

theorem pump (hs : c.Spent) (h : c.Sound) : c.pump = c.idle := by
  rcases hs with hp | hp
  · rw [Client.pump, idle, if_pos hp, if_neg (by rw [hp]; decide)]
  · rw [Client.pump, idle, if_neg (by rw [hp]; decide), (Spent.unlinked (.inr hp) h).link, if_pos hp]

end Spent

/-- What a client without a link is told of an edit goes nowhere. -/
theorem Unlinked.forward (h : c.Unlinked) (doc : String) (listener : Nat)
    (delta : Document.Delta) : c.forward doc listener delta = [] := by
  rw [forward_eq, hasWorker, h.link]
  rfl

end Client

namespace Host
variable {h : Host}

theorem run_ranked (hc : h.client.Sound) (hr : h.client.Ranked) (steps : List Step) :
    (h.run steps).client.Ranked := by
  induction steps generalizing h with
  | nil => exact hr
  | cons s steps ih =>
    have hpassage := perform_passage hc s
    exact ih (hpassage.sound hc) (hpassage.ranked hr)

theorem run_spent (hc : h.client.Sound) (hs : h.client.Spent) (steps : List Step) :
    (h.run steps).client.Spent := by
  induction steps generalizing h with
  | nil => exact hs
  | cons s steps ih =>
    have hpassage := perform_passage hc s
    exact ih (hpassage.sound hc) (hpassage.spent hs)

theorem edit_unlinked (hc : h.client.Unlinked) (name : String)
    (f : Document.TextDocument → Document.Edit) : (h.edit name f).2.2 = [] := by
  rw [edit]
  cases h.doc? name with
  | none => rfl
  | some d => exact List.flatMap_eq_nil_iff.2 fun t _ => hc.forward name t.1 t.2

/-- Whatever happens, a client that is spent has nothing to pump and tells of no edit. -/
theorem run_idle (hc : h.client.Sound) (hs : h.client.Spent) (steps : List Step) :
    let k := h.run steps
    k.client.pump = k.client.idle ∧ k.client.pumpWaiting = k.client.idle ∧
      ∀ name revise, (k.edit name revise).2.2 = [] := by
  intro k
  have hspent : k.client.Spent := run_spent hc hs steps
  have hsound : k.client.Sound := run_sound hc steps
  exact ⟨hspent.pump hsound, k.client.pumpWaiting_eq.trans (hspent.pump hsound),
    edit_unlinked (hspent.unlinked hsound)⟩

theorem client_perform_pump (h : Host) {d : Deed} (hd : d = .pump ∨ d = .pumpWaiting)
    (busy : Option String) : (h.perform {deed := d, busy}).host.client = h.client.pump.client := by
  rcases hd with rfl | rfl
  · exact act_client ..
  · exact (act_client ..).trans (congrArg Reaction.client h.client.pumpWaiting_eq)

/-- **What comes from a worker is delivered in order, up to its end.** Whatever has happened to a client
that has a link, and whatever waits there: the messages in front of the first word of a failure or of
the end are handled in order, each once, an event by those who have subscribed to it by now. If there
is no such word and the worker holds its end, all that waits has been handled. Otherwise the client
fails, without the document and the calls that wait, and whatever happens then it has nothing to pump
and tells of no edit. Waiting for the first message makes no difference, and if none comes nothing
happens. -/
theorem pump_delivers (config : Config) (docs : List (String × List Char)) (steps : List Step) :
    let c := ((fresh config docs).run steps).client
    (c.subscribers.map Subscriber.number).Pairwise (· < ·) ∧
      ∀ l, c.link = some l →
        (∃ left effects, Delivers c.subscribers c.pending (messagesAhead l.inbox) left effects ∧
          match breach? l.farEnd l.inbox with
          | none => c.pump =
              ⟨{c with link := some ⟨[], true⟩, pending := left}, .ok l.inbox.length, effects⟩
          | some reason =>
            c.pump =
                ⟨{c with phase := .faulted, link := none, pending := [], attachment := none},
                  .error (.fault reason),
                  effects ++ .failure (Refusal.fault reason).message :: c.releases⟩ ∧
              ∀ d busy later, d = .pump ∨ d = .pumpWaiting →
                let k := (fresh config docs).run (steps ++ {deed := d, busy} :: later)
                k.client.pump = k.client.idle ∧ k.client.pumpWaiting = k.client.idle ∧
                  ∀ name revise, (k.edit name revise).2.2 = []) ∧
          c.pumpWaiting = c.pump ∧
          (l.inbox = [] → l.farEnd = true → c.pumpWaiting = ⟨c, .ok 0, []⟩) := by
  intro c
  have hfresh : (fresh config docs).client.Sound := .ofConfig config
  have hranked : (fresh config docs).client.Ranked :=
    ⟨.nil, fun _ hs => absurd hs List.not_mem_nil⟩
  have hc : c.Sound := run_sound hfresh steps
  refine ⟨(run_ranked hfresh hranked steps).order, fun l hl => ?_⟩
  have hpump := hc.pump_eq hl
  refine ⟨⟨_, _, c.reactions_delivers (messagesAhead l.inbox), ?_⟩, c.pumpWaiting_eq, ?_⟩
  · cases hb : breach? l.farEnd l.inbox with
    | none =>
      rw [hb] at hpump
      exact hpump
    | some reason =>
      rw [hb] at hpump
      refine ⟨hpump, fun d busy later hd => ?_⟩
      let x := ((fresh config docs).run steps).perform {deed := d, busy}
      have hspent : x.host.client.Spent := by
        rw [client_perform_pump _ hd, hpump]
        exact .inl rfl
      have hsound : x.host.client.Sound := (perform_passage hc _).sound hc
      rw [run, List.foldl_append]
      exact run_idle hsound hspent later
  · intro hnone hend
    have hsame : c.pumped [] = c := by
      rw [Client.pumped, ← hnone, ← hend, ← hl]
      rfl
    rw [c.pumpWaiting_eq, hpump, hnone, hend]
    exact congrArg (fun c : Client => (⟨c, .ok 0, []⟩ : Attempt Nat)) hsame

/-- A worker is at its end between two events, of which one is heard by two. -/
def exiting : List Step :=
  [{deed := .subscribe "ok" .hear}, {deed := .bindRemarks}, {deed := .connect ⟨[], true⟩},
    {deed := .attach "notes"}, {deed := .call "lint" []},
    {deed := .receive (.message (.event "ok" .null))},
    {deed := .receive (.message (.call 1 (.string "done")))}, {deed := .receive .exited},
    {deed := .receive (.message (.event "ok" .null))}]

theorem pump_delivers_exiting :
    let h := fresh .default [("notes", ['x'])]
    let c := (h.run exiting).client
    (∃ left effects, Delivers c.subscribers c.pending
        [.event "ok" .null, .call 1 (.string "done")] left effects ∧
      c.pump.effects =
        effects ++ .failure (Refusal.fault "worker exited").message :: c.releases) ∧
      c.pump.client.phase = .faulted ∧ c.pump.client.attachment = none ∧
      c.pump.client.pending = [] ∧
      (h.run (exiting ++ [{deed := .pump}])).client.pump.effects = [] := by
  obtain ⟨-, hpump⟩ := pump_delivers .default [("notes", ['x'])] exiting
  have hlink : ((fresh .default [("notes", ['x'])]).run exiting).client.link =
      some ⟨[.message (.event "ok" .null), .message (.call 1 (.string "done")), .exited,
        .message (.event "ok" .null)], true⟩ := rfl
  obtain ⟨⟨left, effects, hdelivers, hfails, hlater⟩, -⟩ := hpump _ hlink
  obtain ⟨hquiet, -⟩ := hlater .pump none [] (.inl rfl)
  dsimp only
  rw [hfails, hquiet]
  exact ⟨⟨left, effects, hdelivers, rfl⟩, rfl, rfl, rfl, rfl⟩

end Host

end CodeEditing.Worker
