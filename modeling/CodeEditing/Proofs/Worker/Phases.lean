import Mathlib.Data.List.Nodup
import CodeEditing.Proofs.Worker.Life

/-! The phases of a client.

Whatever happens to a client, its link, the document attached and the calls that wait go with its phase
(`Client.Passage.sound`), and the phase changes in few ways (`Phase.Next`). What is refused outright
changes nothing at all, nor in the documents (`Host.perform_refused`). Those who subscribed to the
client's end hear of it once: numbers of subscribers are never used again (`Client.Since`), so before
the end they hear only what a worker tells them. `Host.phases_follow` says all this of every life. -/
namespace CodeEditing.Worker

open Json (Value)

/-- How the phase of a client may change. -/
inductive Phase.Next : Phase → Phase → Prop
  | starts : Next .uninitialized .initializing
  | attaches : Next .initializing .attached
  | leaves : Next .attached .initializing
  | fails {p : Phase} (h : p = .uninitialized ∨ p.isLinked) : Next p .faulted
  | ends {p : Phase} (h : p ≠ .terminated) : Next p .terminated

namespace Client
variable {c : Client} {d : Deed} {r : Attempt (Option Nat)}

/-! ### One deed -/

namespace Passage

theorem phase (hr : Passage c d r) :
    r.client.phase = c.phase ∨ c.phase.Next r.client.phase := by
  cases hr with
  | refused hd he => exact .inl rfl
  | adopts hd hp hinbox => exact .inr (hp ▸ .starts)
  | fails next hd hp he heffects => exact .inr (.fails hp)
  | pumps hd hlive hms => exact .inl rfl
  | breaks hd hp hms => exact .inr (.fails (.inr hp))
  | attaches hlive =>
    have hp := hlive.phase
    split at hp
    · exact .inl hp.symm
    · exact .inr (hp ▸ .attaches)
  | leaves hlinked =>
    have hp := hlinked.phase
    split at hp
    · exact .inr (hp ▸ .leaves)
    · exact .inl hp.symm
  | calls hlive => exact .inl rfl
  | terminates hp => exact .inr (.ends hp)
  | keeps link hend hleft hlink hinbox heffects =>
    obtain ⟨subscribers, nextSubscriber, hc⟩ := c.enrol_eq d
    rw [hc]
    exact .inl rfl

/-- A client is given up in one way. -/
theorem terminated_iff (hr : Passage c d r) :
    r.client.phase = .terminated ↔ c.phase = .terminated ∨ d = .terminate := by
  have hneither {p q : Phase} (hp : p ≠ .terminated) (hq : q ≠ .terminated)
      (hd : d.isLeaving = false) : q = .terminated ↔ p = .terminated ∨ d = .terminate :=
    ⟨fun h => absurd h hq, fun h => absurd h (not_or.2 ⟨hp, (Deed.ne_of_isLeaving hd).2⟩)⟩
  have hlinked {p : Phase} (hp : p.isLinked = true) : p ≠ .terminated := by
    rintro rfl
    cases hp
  cases hr with
  | refused hd he => exact ⟨.inl, fun h => h.resolve_right (Deed.ne_of_isLeaving hd).2⟩
  | adopts hd hp hinbox => exact hneither (by rw [hp]; decide) Phase.noConfusion hd
  | fails next hd hp he heffects =>
    exact hneither (hp.elim (fun hp => by rw [hp]; decide) hlinked) Phase.noConfusion hd
  | pumps hd hlive hms =>
    have hp := hlinked hlive.isLinked
    exact hneither hp hp (Deed.isLeaving_pump hd)
  | breaks hd hp hms => exact hneither (hlinked hp) Phase.noConfusion (Deed.isLeaving_pump hd)
  | attaches hlive => exact hneither (hlinked hlive.isLinked) Phase.noConfusion rfl
  | leaves h =>
    exact ⟨fun hp => absurd hp Phase.noConfusion, fun hp =>
      absurd (hp.resolve_right Deed.noConfusion) (hlinked h.isLinked)⟩
  | calls hlive =>
    have hp := hlinked hlive.isLinked
    exact hneither hp hp rfl
  | terminates hp => exact ⟨fun _ => .inr rfl, fun _ => rfl⟩
  | keeps link hend hleft hlink hinbox heffects =>
    obtain ⟨subscribers, nextSubscriber, hc⟩ := c.enrol_eq d
    rw [hc]
    exact ⟨.inl, fun h => h.elim id hend⟩

/-- What is refused outright changes nothing. -/
theorem outright (hr : Passage c d r) {e : Refusal} (he : r.result = .error e)
    (hout : e.isOutright = true) : r.client = c ∧ r.effects = [] := by
  cases hr with
  | refused hd he => exact ⟨rfl, rfl⟩
  | fails next hd hp hnot heffects =>
    cases he
    rw [hout] at hnot
    cases hnot
  | breaks hd hp hms =>
    cases he
    cases hout
  | _ => cases he

end Passage

end Client

namespace Host

theorem docs_of_act {h : Host} {f : Client → Reaction α} {busy : Option String}
    {g : α → Except Refusal (Option Nat)} (he : (Outcome.of (h.act f busy) g).effects = []) :
    (Outcome.of (h.act f busy) g).host.docs = h.docs := by
  have hnone : (f h.client).effects = [] := he
  rw [Outcome.of, act, hnone]
  rfl

/-- What fails and has no effects leaves the documents alone. -/
theorem perform_docs {h : Host} {s : Step} {e : Refusal} (hr : (h.perform s).result = .error e)
    (he : (h.perform s).effects = []) : (h.perform s).host.docs = h.docs := by
  obtain ⟨deed, busy⟩ := s
  cases deed with
  | attach name =>
    unfold perform Host.attach at *
    dsimp only at *
    split at he
    · exact docs_of_act he
    · rfl
  | edit name r => cases hr
  | drop name => cases hr
  | receive o => cases hr
  | loseWorker => cases hr
  | _ => exact docs_of_act he

/-- What is refused outright changes nothing, neither a client nor a document. -/
theorem perform_refused {h : Host} (hc : h.client.Sound) {s : Step} {e : Refusal}
    (hr : (h.perform s).result = .error e) (hout : e.isOutright = true) :
    (h.perform s).host = h ∧ (h.perform s).effects = [] := by
  obtain ⟨hclient, heffects⟩ := (perform_passage hc s).outright hr hout
  have hdocs := perform_docs hr heffects
  exact ⟨congrArg₂ Host.mk hclient hdocs, heffects⟩

end Host

/-! ### Hearing of the end -/

/-- What a subscriber hears. -/
def heardBy (number : Nat) (effects : List Effect) : List Value :=
  effects.filterMap fun
    | .heard n data => if n = number then some data else none
    | _ => none

theorem heardBy_append (number : Nat) (a b : List Effect) :
    heardBy number (a ++ b) = heardBy number a ++ heardBy number b :=
  List.filterMap_append

theorem heardBy_eq_nil {number : Nat} {effects : List Effect}
    (h : ∀ data, .heard number data ∉ effects) : heardBy number effects = [] := by
  refine List.filterMap_eq_nil_iff.2 fun e he => ?_
  cases e with
  | heard n data =>
    refine if_neg fun hn => ?_
    subst hn
    exact h data he
  | _ => rfl

theorem Subscriber.number_of_react {s : Subscriber} {data told : Value} {number : Nat}
    (h : s.react data = .heard number told) : s.number = number := by
  rcases s.react_cases data with hs | ⟨remarks, hs⟩ | ⟨warning, hs⟩ <;> rw [hs] at h <;> cases h
  rfl

/-- The event that comes from a worker. -/
def Output.event? : Output → Option String
  | message (.event name _) => some name
  | _ => none

namespace Client
variable {c : Client} {d : Deed} {r : Attempt (Option Nat)}

/-- The numbers of subscribers are different and used up. -/
structure Listed (c : Client) : Prop where
  nodup : (c.subscribers.map Subscriber.number).Nodup
  below : ∀ s ∈ c.subscribers, s.number < c.nextSubscriber

/-- Whoever is a subscriber later was one before or has a number that nobody had before. -/
structure Since (c later : Client) : Prop where
  next : c.nextSubscriber ≤ later.nextSubscriber
  old : ∀ s ∈ later.subscribers, s ∈ c.subscribers ∨ c.nextSubscriber ≤ s.number

theorem Since.refl (c : Client) : c.Since c := ⟨Nat.le_refl _, fun _ => .inl⟩

theorem Since.trans {a b c : Client} (hab : a.Since b) (hbc : b.Since c) : a.Since c where
  next := Nat.le_trans hab.next hbc.next
  old s hs := (hbc.old s hs).elim (hab.old s) fun h => .inr (Nat.le_trans hab.next h)

/-- A subscriber of a later client is the one that had its number before. -/
theorem Since.same {later : Client} (h : c.Since later) (hc : c.Listed) {s t : Subscriber}
    (hs : s ∈ later.subscribers) (ht : t ∈ c.subscribers) (hn : t.number = s.number) : t = s := by
  rcases h.old s hs with hold | hnew
  · exact List.inj_on_of_nodup_map hc.nodup ht hold hn
  · exact absurd (hn ▸ hc.below t ht) (Nat.not_lt.2 hnew)

theorem Listed.subscribe (h : c.Listed) (event : String) (handler : Handler) :
    (c.subscribe event handler).client.Listed ∧ c.Since (c.subscribe event handler).client := by
  let s : Subscriber := ⟨c.nextSubscriber, event, handler⟩
  refine ⟨⟨nodup_map_concat (a := s) Subscriber.number h.nodup h.below,
    below_concat (a := s) Subscriber.number h.below⟩, Nat.le_succ _, fun t ht => ?_⟩
  exact (List.mem_append.1 ht).imp_right fun ht =>
    Nat.le_of_eq (congrArg Subscriber.number (List.mem_singleton.1 ht)).symm

theorem Listed.enrol (h : c.Listed) (d : Deed) : (d.enrol c).Listed ∧ c.Since (d.enrol c) := by
  cases d with
  | subscribe event handler => exact h.subscribe event handler
  | unsubscribe number =>
    have hfewer : (c.unsubscribe number).client.subscribers.Sublist c.subscribers :=
      List.filter_sublist
    exact ⟨⟨h.nodup.sublist (hfewer.map _), fun s hs => h.below s (hfewer.subset hs)⟩,
      Nat.le_refl _, fun s hs => .inl (hfewer.subset hs)⟩
  | bindRemarks =>
    obtain ⟨hmarks, hsince⟩ := h.subscribe "error" .mark
    obtain ⟨hclears, hsince'⟩ := hmarks.subscribe "ok" .clear
    exact ⟨hclears, hsince.trans hsince'⟩
  | _ => exact ⟨h, .refl c⟩

namespace Passage

theorem listed (h : c.Listed) (hr : Passage c d r) : r.client.Listed ∧ c.Since r.client := by
  have hsame : c.Listed ∧ c.Since c := ⟨h, .refl c⟩
  cases hr with
  | keeps link hend hleft hlink hinbox heffects =>
    obtain ⟨hlisted, hsince⟩ := h.enrol d
    exact ⟨⟨hlisted.nodup, hlisted.below⟩, hsince.next, hsince.old⟩
  | _ => exact ⟨⟨h.nodup, h.below⟩, Nat.le_refl _, fun _ => .inl⟩

/-- What waits to be pumped was waiting before or has just come. -/
theorem inbox (hr : Passage c d r) : ∀ o ∈ r.client.inbox, o ∈ c.inbox ∨ o ∈ d.outputs := by
  intro o ho
  cases hr with
  | adopts hd hp hinbox => exact .inr (hinbox ▸ ho)
  | fails next hd hp he heffects => exact absurd ho List.not_mem_nil
  | pumps hd hlive hms => exact absurd ho List.not_mem_nil
  | breaks hd hp hms => exact absurd ho List.not_mem_nil
  | terminates hp => exact absurd ho List.not_mem_nil
  | keeps link hend hleft hlink hinbox heffects => exact hinbox o ho
  | _ => exact .inl ho

end Passage

/-- No event waits that the subscriber of the given number would hear of. -/
def Unaware (c : Client) (number : Nat) : Prop :=
  ∀ name data, .message (.event name data) ∈ c.inbox →
    ∀ s ∈ c.subscribers, s.number = number → s.event ≠ name

theorem heard_reactions {number : Nat} {ms : List WorkerMessage}
    (h : ∀ name data, .event name data ∈ ms →
      ∀ s ∈ c.subscribers, s.number = number → s.event ≠ name) (data : Value) :
    .heard number data ∉ c.reactions ms := by
  induction ms generalizing c with
  | nil => exact List.not_mem_nil
  | cons m ms ih =>
    rw [reactions, List.mem_append, not_or]
    refine ⟨fun hm => ?_, ih fun name data hm => h name data (List.mem_cons_of_mem _ hm)⟩
    cases m with
    | log note => exact absurd (List.mem_singleton.1 hm) Effect.noConfusion
    | event name sent =>
      obtain ⟨s, hs, hreact⟩ := List.mem_map.1 hm
      obtain ⟨hs, hevent⟩ := List.mem_filter.1 hs
      exact h name _ List.mem_cons_self s hs (Subscriber.number_of_react hreact) (eq_of_beq hevent)
    | call id answer =>
      simp only [reaction, dispatch] at hm
      split at hm
      · exact absurd (List.mem_singleton.1 hm) Effect.noConfusion
      · exact absurd hm List.not_mem_nil

/-- A subscriber hears of events that wait for it, and of the end when the client is given up. -/
theorem Passage.heard_nil (hr : Passage c d r) (hd : d = .terminate → c.phase = .terminated)
    {number : Nat} (hn : c.Unaware number) : heardBy number r.effects = [] := by
  refine heardBy_eq_nil fun data hh => ?_
  cases hr with
  | refused hd he => exact absurd hh List.not_mem_nil
  | adopts hd hp hinbox => exact absurd (List.mem_singleton.1 hh) Effect.noConfusion
  | fails next hd hp he heffects => exact heffects _ hh
  | @pumps d ms hd hlive hms =>
    refine heard_reactions (fun name data hm => hn name data ?_) data hh
    exact hms ▸ List.mem_map_of_mem hm
  | @breaks d ms rest reason hd hp hms =>
    rcases List.mem_append.1 hh with hh | hh
    · refine heard_reactions (fun name data hm => hn name data ?_) data hh
      exact hms ▸ List.mem_append_left _ (List.mem_map_of_mem hm)
    · rcases List.mem_cons.1 hh with hh | hh
      · cases hh
      · exact c.parting_releases _ hh
  | attaches hlive =>
    rcases List.mem_append.1 hh with hh | hh
    · exact c.parting_releases _ hh
    · rcases List.mem_cons.1 hh with hh | hh
      · cases hh
      · exact absurd (List.mem_singleton.1 hh) Effect.noConfusion
  | leaves hlinked => exact c.parting_releases _ hh
  | calls hlive => exact absurd (List.mem_singleton.1 hh) Effect.noConfusion
  | terminates hp => exact hp (hd rfl)
  | keeps link hend hleft hlink hinbox heffects => exact heffects _ hh

/-- One of the subscribers has its number, so it hears an event once. -/
theorem Listed.heard_notify (h : c.Listed) {number : Nat} {event : String}
    (hs : ⟨number, event, .hear⟩ ∈ c.subscribers) (data : Value) :
    heardBy number (c.notify event data) = [data] := by
  obtain ⟨before, behind, hc, hbefore, hbehind⟩ := split_of_nodup_map _ h.nodup hs
  have hnone : ∀ ss : List Subscriber, (∀ s ∈ ss, s.number ≠ number) →
      heardBy number ((ss.filter (·.event == event)).map (·.react data)) = [] := by
    intro ss hss
    refine heardBy_eq_nil fun told hh => ?_
    obtain ⟨s, hs, hreact⟩ := List.mem_map.1 hh
    exact hss s (List.mem_filter.1 hs).1 (Subscriber.number_of_react hreact)
  have hown : heardBy number [.heard number data] = [data] := by simp [heardBy]
  have hpick : ((⟨number, event, .hear⟩ : Subscriber) :: behind).filter (·.event == event) =
      ⟨number, event, .hear⟩ :: behind.filter (·.event == event) :=
    List.filter_cons_of_pos (beq_self_eq_true event)
  rw [notify, hc, List.filter_append, hpick, List.map_append, List.map_cons, heardBy_append,
    hnone before hbefore, List.nil_append]
  show heardBy number ([.heard number data] ++ _) = _
  rw [heardBy_append, hown, hnone behind hbehind]
  rfl

/-- A client in order, to which no worker has told of its own end. -/
structure Orderly (c : Client) : Prop where
  sound : c.Sound
  listed : c.Listed
  quiet : ∀ o ∈ c.inbox, o.event? ≠ some "terminate"

theorem Orderly.ofConfig (config : Config) : (Client.ofConfig config).Orderly :=
  ⟨.ofConfig config, ⟨.nil, fun _ hs => absurd hs List.not_mem_nil⟩,
    fun _ ho => absurd ho List.not_mem_nil⟩

end Client

namespace Host
variable {h : Host}

theorem perform_orderly (hc : h.client.Orderly) {s : Step}
    (hs : ∀ o ∈ s.deed.outputs, o.event? ≠ some "terminate") :
    (h.perform s).host.client.Orderly :=
  have hr := perform_passage hc.sound s
  ⟨hr.sound hc.sound, (hr.listed hc.listed).1, fun o ho => (hr.inbox o ho).elim (hc.quiet o) (hs o)⟩

theorem run_orderly (hc : h.client.Orderly) {steps : List Step}
    (hs : ∀ s ∈ steps, ∀ o ∈ s.deed.outputs, o.event? ≠ some "terminate") :
    (h.run steps).client.Orderly := by
  induction steps generalizing h with
  | nil => exact hc
  | cons s steps ih =>
    exact ih (perform_orderly hc (hs s List.mem_cons_self)) fun t ht =>
      hs t (List.mem_cons_of_mem _ ht)

theorem run_since (hc : h.client.Orderly) {steps : List Step}
    (hs : ∀ s ∈ steps, ∀ o ∈ s.deed.outputs, o.event? ≠ some "terminate") :
    h.client.Since (h.run steps).client := by
  induction steps generalizing h with
  | nil => exact .refl _
  | cons s steps ih =>
    have hnext := perform_orderly hc (hs s List.mem_cons_self)
    exact ((perform_passage hc.sound s).listed hc.listed).2.trans
      (ih hnext fun t ht => hs t (List.mem_cons_of_mem _ ht))

/-- Before the client is given up a subscriber of its end hears nothing. -/
theorem heard_before (hc : h.client.Orderly) {steps : List Step}
    (hs : ∀ s ∈ steps, s.deed ≠ .terminate ∧ ∀ o ∈ s.deed.outputs, o.event? ≠ some "terminate")
    {number : Nat}
    (hn : ⟨number, "terminate", .hear⟩ ∈ (h.run steps).client.subscribers) :
    heardBy number (h.effects steps) = [] := by
  induction steps generalizing h with
  | nil => rfl
  | cons s steps ih =>
    obtain ⟨hdeed, hquiet⟩ := hs s List.mem_cons_self
    have hmore := fun t ht => hs t (List.mem_cons_of_mem _ ht)
    have hunaware : h.client.Unaware number := by
      rintro name data hevent t ht rfl rfl
      have hsame := (run_since hc fun t ht => (hs t ht).2).same hc.listed hn ht rfl
      exact hc.quiet _ hevent (congrArg (fun x : Subscriber => some x.event) hsame)
    rw [effects, heardBy_append, ih (perform_orderly hc hquiet) hmore hn, List.append_nil]
    exact (perform_passage hc.sound s).heard_nil (fun ht => absurd ht hdeed) hunaware

/-- Once the client is given up nobody hears anything. -/
theorem heard_behind (hc : h.client.Sound) (hp : h.client.phase = .terminated) (steps : List Step)
    (number : Nat) : heardBy number (h.effects steps) = [] := by
  induction steps generalizing h with
  | nil => rfl
  | cons s steps ih =>
    have hr := perform_passage hc s
    have hunaware : h.client.Unaware number := by
      intro name data hevent
      rcases hc.cases with hu | ⟨l, hl⟩
      · rw [Client.inbox, hu.link] at hevent
        exact absurd hevent List.not_mem_nil
      · have := hl.isLinked
        rw [hp] at this
        cases this
    rw [effects, heardBy_append, ih (hr.sound hc) (hr.terminated_iff.2 (.inl hp)), List.append_nil]
    exact hr.heard_nil (fun _ => hp) hunaware

/-- When the client is given up a subscriber of its end hears of it. -/
theorem heard_at (hc : h.client.Orderly) (hp : h.client.phase ≠ .terminated) {s : Step}
    (hs : s.deed = .terminate) {number : Nat}
    (hn : ⟨number, "terminate", .hear⟩ ∈ h.client.subscribers) :
    heardBy number (h.perform s).effects = [.object []] := by
  obtain ⟨deed, busy⟩ := s
  obtain rfl : deed = .terminate := hs
  show heardBy number (h.client.terminate).effects = _
  have hreleases : heardBy number h.client.releases = [] :=
    heardBy_eq_nil fun data hh => h.client.parting_releases _ hh
  rw [Client.terminate_eq hp, heardBy_append, hc.listed.heard_notify hn, hreleases, List.append_nil]

/-- A client is not given up until something gives it up. -/
theorem run_not_terminated (hc : h.client.Sound) (hp : h.client.phase ≠ .terminated)
    {steps : List Step} (hs : ∀ s ∈ steps, s.deed ≠ .terminate) :
    (h.run steps).client.phase ≠ .terminated := by
  induction steps generalizing h with
  | nil => exact hp
  | cons s steps ih =>
    have hr := perform_passage hc s
    refine ih (hr.sound hc) (fun hterm => ?_) fun t ht => hs t (List.mem_cons_of_mem _ ht)
    exact (hr.terminated_iff.1 hterm).elim hp (hs s List.mem_cons_self)

/-- **The phases of a client.** Whatever happens to a client from the first on: there is a link in two
phases, a document attached in one of these, and calls wait in these two only; every change of phase
is one of a few, and the client is given up when it is asked to and not otherwise; and what is refused
outright leaves the host as it is and is seen by nobody. Unless a worker tells of an event of that
name, those who have subscribed to the end of the client hear of it once in its life. -/
theorem phases_follow (config : Config) (docs : List (String × List Char)) (steps : List Step) :
    let h := (fresh config docs).run steps
    h.client.Sound ∧
      (∀ s, let x := h.perform s
        (x.host.client.phase = h.client.phase ∨ h.client.phase.Next x.host.client.phase) ∧
          (x.host.client.phase = .terminated ↔
            h.client.phase = .terminated ∨ s.deed = .terminate) ∧
          ∀ e, x.result = .error e → e.isOutright = true → x.host = h ∧ x.effects = []) ∧
      ∀ before s behind number, steps = before ++ s :: behind → s.deed = .terminate →
        (∀ t ∈ before, t.deed ≠ .terminate) →
        (∀ t ∈ steps, ∀ o ∈ t.deed.outputs, o.event? ≠ some "terminate") →
        ⟨number, "terminate", .hear⟩ ∈ ((fresh config docs).run before).client.subscribers →
        heardBy number ((fresh config docs).effects steps) = [.object []] := by
  intro h
  have hfresh : (fresh config docs).client.Orderly := .ofConfig config
  have hc : h.client.Sound := run_sound hfresh.sound steps
  refine ⟨hc, fun s => ?_, ?_⟩
  · have hr := perform_passage hc s
    exact ⟨hr.phase, hr.terminated_iff, fun e he hout => perform_refused hc he hout⟩
  · rintro before s behind number rfl hs hbefore hquiet hn
    have hquiet' := fun t ht => hquiet t (List.mem_append_left _ ht)
    have hmid := run_orderly hfresh hquiet'
    have hnot := run_not_terminated hfresh.sound Phase.noConfusion hbefore
    have hr := perform_passage hmid.sound s
    have hend := heard_behind (hr.sound hmid.sound) (hr.terminated_iff.2 (.inr hs)) behind number
    rw [effects_append, effects, heardBy_append, heardBy_append,
      heard_before hfresh (fun t ht => ⟨hbefore t ht, hquiet' t ht⟩) hn, heard_at hmid hnot hs hn]
    exact congrArg ([Value.object []] ++ ·) hend

/-- A life in which the client is given up while the document attached is being read, and given up
again. -/
def givenUp : List Step :=
  [{deed := .subscribe "terminate" .hear}, {deed := .connect ⟨[], true⟩}, {deed := .attach "notes"},
    {deed := .terminate, busy := some "notes"}, {deed := .terminate}]

theorem phases_follow_givenUp :
    let h := fresh .default [("notes", ['x'])]
    (h.run givenUp).client.phase = .terminated ∧ (h.run givenUp).client.Sound ∧
      heardBy 0 (h.effects givenUp) = [.object []] := by
  intro h
  obtain ⟨hsound, -, hheard⟩ := phases_follow .default [("notes", ['x'])] givenUp
  have hbefore : ∀ t ∈ givenUp.take 3, t.deed ≠ .terminate := by
    simp [givenUp]
  have hquiet : ∀ t ∈ givenUp, ∀ o ∈ t.deed.outputs, o.event? ≠ some "terminate" := by
    simp [givenUp, Deed.outputs]
  have hlisted : ⟨0, "terminate", .hear⟩ ∈ (h.run (givenUp.take 3)).client.subscribers := by
    decide +kernel
  have hheard := hheard (givenUp.take 3) {deed := .terminate, busy := some "notes"}
    [{deed := .terminate}] 0 rfl rfl hbefore hquiet hlisted
  exact ⟨by decide +kernel, hsound, hheard⟩

end Host

end CodeEditing.Worker
