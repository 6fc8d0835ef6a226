import CodeEditing.Proofs.Lint.Plain
import CodeEditing.Proofs.Worker.Steps

/-! The remarks shown and the verdict on the document.

A host that shows the remarks of its worker ends up with the verdict on the document attached, in
whatever order the steps come: `Session.remarks_converge`. The invariant is `Session.Showing`. It
takes into account what is under way: were all heeded that waits to be pumped, the remarks shown
would be those of the worker's copy, unless the worker still has to look at it; and what waits to be
handled about the copy makes the worker look again. -/
namespace CodeEditing.Worker

open Document (Remark TextDocument)
open Json (Value)
open Lint (checkBrackets)

/-! ### Heeding events -/

/-- The remarks that a message asks to show: the one of an `error` event, none from an `ok` event
on. -/
def WorkerMessage.shows? : WorkerMessage → Option (List Remark)
  | event name data =>
    if name = "error" then
      (Json.decodeValue Remark.record.decode data).toOption.map fun a => [a]
    else if name = "ok" then some []
    else none
  | _ => none

/-- The remarks shown behind messages, if they are heeded. -/
def heeded (remarks : List Remark) (ms : List WorkerMessage) : List Remark :=
  ms.foldl (fun remarks m => m.shows?.getD remarks) remarks

theorem heeded_append (remarks : List Remark) (ms ks : List WorkerMessage) :
    heeded remarks (ms ++ ks) = heeded (heeded remarks ms) ks :=
  List.foldl_append

/-- Only the events meant for it make a subscriber touch the remarks. -/
def Subscriber.Fair (s : Subscriber) : Prop :=
  match s.handler with
  | .hear => True
  | .mark => s.event = "error"
  | .clear => s.event = "ok"

theorem Subscriber.Fair.react {s : Subscriber} (h : s.Fair) (data : Value) :
    (s.react data).Unshown ∨
      ∃ new, (WorkerMessage.event s.event data).shows? = some new ∧
        ∀ remarks, shown remarks (s.react data) = new := by
  unfold Subscriber.Fair at h
  unfold Subscriber.react
  cases hh : s.handler with
  | hear => exact .inl fun _ => rfl
  | mark =>
    rw [hh] at h
    cases hd : Json.decodeValue Remark.record.decode data with
    | ok a => exact .inr ⟨[a], by simp [WorkerMessage.shows?, h, hd, Except.toOption], fun _ => rfl⟩
    | error e => exact .inl fun _ => rfl
  | clear =>
    rw [hh] at h
    exact .inr ⟨[], by simp [WorkerMessage.shows?, h], fun _ => rfl⟩

/-- A host that shows remarks: two of the subscribers mark and clear them, under the given
numbers. -/
structure Bound (c : Client) (numbers : Nat × Nat) : Prop where
  fair : ∀ s ∈ c.subscribers, s.Fair
  marks : ⟨numbers.1, "error", .mark⟩ ∈ c.subscribers
  clears : ⟨numbers.2, "ok", .clear⟩ ∈ c.subscribers

/-- Effects of which one shows some remarks, while the others show the same ones or none. -/
theorem foldl_shown_eq {effects : List Effect} {new : List Remark}
    (hnew : ∃ e ∈ effects, ∀ remarks, shown remarks e = new)
    (h : ∀ e ∈ effects, e.Unshown ∨ ∀ remarks, shown remarks e = new)
    (remarks : List Remark) : effects.foldl shown remarks = new := by
  have hstays : ∀ more : List Effect, (∀ e ∈ more, e ∈ effects) → more.foldl shown new = new := by
    intro more hmore
    induction more with
    | nil => rfl
    | cons e more ih =>
      have hstep : shown new e = new := (h e (hmore e List.mem_cons_self)).elim (· new) (· new)
      rw [List.foldl_cons, hstep]
      exact ih fun e he => hmore e (List.mem_cons_of_mem _ he)
  obtain ⟨e, he, hshows⟩ := hnew
  obtain ⟨before, behind, rfl⟩ := List.append_of_mem he
  rw [List.foldl_append, List.foldl_cons, hshows]
  exact hstays behind fun e he => List.mem_append_right _ (List.mem_cons_of_mem _ he)

namespace Bound
variable {c : Client} {numbers : Nat × Nat}

theorem react_mem {s : Subscriber} (hs : s ∈ c.subscribers) (data : Value) :
    s.react data ∈ c.notify s.event data :=
  List.mem_map.2 ⟨s, List.mem_filter.2 ⟨hs, beq_self_eq_true _⟩, rfl⟩

/-- One of the subscribers shows the remarks that an event asks for. -/
theorem exists_shown (h : Bound c numbers) {event : String} {data : Value} {new : List Remark}
    (hnew : (WorkerMessage.event event data).shows? = some new) :
    ∃ e ∈ c.notify event data, ∀ remarks, shown remarks e = new := by
  by_cases herror : event = "error"
  · subst herror
    refine ⟨_, react_mem h.marks data, fun remarks => ?_⟩
    cases hd : Json.decodeValue Remark.record.decode data with
    | error e => simp [WorkerMessage.shows?, hd, Except.toOption] at hnew
    | ok a =>
      obtain rfl : [a] = new := by simpa [WorkerMessage.shows?, hd, Except.toOption] using hnew
      simp only [Subscriber.react, hd, shown]
  · by_cases hok : event = "ok"
    · subst hok
      obtain rfl : [] = new := by simpa [WorkerMessage.shows?] using hnew
      exact ⟨_, react_mem h.clears data, fun _ => rfl⟩
    · simp [WorkerMessage.shows?, herror, hok] at hnew

/-- The subscribers see to it that events are heeded. -/
theorem notify (h : Bound c numbers) (event : String) (data : Value) (remarks : List Remark) :
    (c.notify event data).foldl shown remarks = heeded remarks [.event event data] := by
  have hreact : ∀ e ∈ c.notify event data, e.Unshown ∨
      ∃ new, (WorkerMessage.event event data).shows? = some new ∧
        ∀ remarks, shown remarks e = new := by
    intro e he
    obtain ⟨s, hs, rfl⟩ := List.mem_map.1 he
    obtain ⟨hs, hevent⟩ := List.mem_filter.1 hs
    exact eq_of_beq hevent ▸ (h.fair s hs).react data
  show _ = (WorkerMessage.event event data).shows?.getD remarks
  cases hshows : (WorkerMessage.event event data).shows? with
  | none =>
    refine foldl_shown (fun e he => (hreact e he).resolve_right ?_) remarks
    rintro ⟨new, hnew, -⟩
    exact absurd (hshows.symm.trans hnew) nofun
  | some new =>
    refine foldl_shown_eq (h.exists_shown hshows) (fun e he => (hreact e he).imp_right ?_) remarks
    rintro ⟨k, hk, he⟩
    exact Option.some.inj (hshows.symm.trans hk) ▸ he

theorem reactions (h : Bound c numbers) (ms : List WorkerMessage) (remarks : List Remark) :
    (c.reactions ms).foldl shown remarks = heeded remarks ms := by
  induction ms generalizing c remarks with
  | nil => rfl
  | cons m ms ih =>
    have hfirst : (c.reaction m).foldl shown remarks = heeded remarks [m] := by
      cases m with
      | log data => rfl
      | event name data => exact h.notify name data remarks
      | call id data =>
        simp only [Client.reaction, Client.dispatch]
        cases c.pending.lookup id <;> rfl
    have hnext : Bound {c with pending := Client.settled c.pending m} numbers :=
      ⟨h.fair, h.marks, h.clears⟩
    rw [Client.reactions, List.foldl_append, hfirst, ih hnext]
    rfl

end Bound

/-! ### What the linter sends -/

/-- Handling messages, the linter tells nothing of the document. -/
theorem shows?_of_mem_sent {w : Follower Unit} {m : HostMessage} {k : WorkerMessage}
    (hk : k ∈ (w.handle linter m).sent) : k.shows? = none := by
  have haside := isAside_of_mem_sent hk
  cases k with
  | log data => rfl
  | event name data => cases haside
  | call id data => rfl

theorem heeded_of_shows? {ms : List WorkerMessage} (h : ∀ m ∈ ms, m.shows? = none)
    (remarks : List Remark) : heeded remarks ms = remarks := by
  induction ms with
  | nil => rfl
  | cons m ms ih =>
    show heeded (m.shows?.getD remarks) ms = remarks
    rw [h m List.mem_cons_self]
    exact ih fun m hm => h m (List.mem_cons_of_mem _ hm)

/-- What the linter tells of a document asks to show its first fault. -/
theorem shows?_verdict (doc : TextDocument) :
    (verdict doc).shows? = some (checkBrackets doc.lines).toList := by
  unfold verdict
  cases checkBrackets doc.lines with
  | none => rfl
  | some a => simp [WorkerMessage.shows?, payload, Remark.decodeValue_toJson, Except.toOption]

/-! ### What makes the linter look again -/

def Act.isAttach : Act → Bool
  | attach _ => true
  | _ => false

/-- Behind every message about the copy the linter has something to look at. -/
def HostMessage.Stirs (m : HostMessage) : Prop :=
  m.tells → ∀ w : Follower Unit, (w.handle linter m).follower.dirty = true

/-- What a host sends about the copy: the text of a document that it attaches, or a change of the
document attached. -/
theorem Act.Posts.cases {c : Client} {act : Act} {ms : List HostMessage} (h : act.Posts c ms)
    (hact : act.Allowed) {m : HostMessage} (hm : m ∈ ms) : m.tells = false ∨
      act.isAttach = true ∧ (∃ text, m = .command "setValue" [.string text]) ∨
        c.attachment ≠ none ∧ ∃ delta, m = .change delta := by
  cases act with
  | attach name =>
    obtain rfl | ⟨text, rfl⟩ := h
    · exact absurd hm List.not_mem_nil
    · exact .inr (.inl ⟨rfl, text, List.mem_singleton.1 hm⟩)
  | edit name r =>
    obtain ⟨deltas, rfl, hnone⟩ := h
    obtain ⟨delta, -, rfl⟩ := List.mem_map.1 hm
    refine .inr (.inr ⟨fun ha => ?_, delta, rfl⟩)
    rw [hnone ha] at hm
    exact List.not_mem_nil hm
  | send command args =>
    obtain rfl := h
    exact .inl (List.mem_singleton.1 hm ▸ decide_eq_false hact)
  | call command args =>
    obtain rfl := h
    exact .inl (List.mem_singleton.1 hm ▸ decide_eq_false hact)
  | emit event data =>
    cases data with
    | ok data =>
      obtain rfl := h
      exact .inl (List.mem_singleton.1 hm ▸ decide_eq_false hact)
    | error e =>
      obtain rfl := h
      exact absurd hm List.not_mem_nil
  | _ =>
    obtain rfl := h
    exact absurd hm List.not_mem_nil

/-- A host that leaves what is about the copy to its client sends no other messages. -/
theorem Act.Posts.stirs {c : Client} {act : Act} {ms : List HostMessage} (h : act.Posts c ms)
    (hact : act.Allowed) : ∀ m ∈ ms, m.Stirs := by
  intro m hm htells w
  rcases h.cases hact hm with hquiet | ⟨-, text, rfl⟩ | ⟨-, delta, rfl⟩
  · exact absurd (hquiet.symm.trans htells) nofun
  · rfl
  · show (w.change delta.toJson.sorted).follower.dirty = true
    rw [Follower.change, Document.Delta.decodeValue_toJson]
    rfl

/-- A host without a document tells nothing of one. -/
theorem Act.Posts.quiet {c : Client} {act : Act} {ms : List HostMessage} (h : act.Posts c ms)
    (hact : act.Allowed) (hattach : act.isAttach = false) (hnone : c.attachment = none) :
    ∀ m ∈ ms, m.tells = false := by
  intro m hm
  rcases h.cases hact hm with hquiet | ⟨hattached, -⟩ | ⟨hsome, -⟩
  · exact hquiet
  · exact absurd (hattach.symm.trans hattached) nofun
  · exact absurd hnone hsome

/-! ### Steps that respect the remarks -/

/-- Nobody but the subscribers that show remarks touches them. -/
def Act.Hears : Act → Prop
  | subscribe _ handler => handler = .hear
  | _ => True

instance : (act : Act) → Decidable act.Hears
  | .subscribe _ handler => decEq handler .hear
  | .attach .. | .detach .. | .edit .. | .send .. | .call .. | .emit ..
  | .unsubscribe .. | .bindRemarks | .pump | .pumpWaiting | .receive ..
  | .handle | .finish => isTrue trivial

/-- The subscribers of the given numbers are kept. -/
def Act.Keeps (numbers : Nat × Nat) : Act → Prop
  | unsubscribe number => number ≠ numbers.1 ∧ number ≠ numbers.2
  | _ => True

instance (numbers : Nat × Nat) : (act : Act) → Decidable (act.Keeps numbers)
  | .unsubscribe number => inferInstanceAs (Decidable (number ≠ numbers.1 ∧ number ≠ numbers.2))
  | .attach .. | .detach .. | .edit .. | .send .. | .call .. | .emit ..
  | .subscribe .. | .bindRemarks | .pump | .pumpWaiting | .receive .. | .handle
  | .finish => isTrue trivial

theorem Act.Hears.book {c : Client} {act : Act} (hact : act.Hears)
    (h : ∀ x ∈ c.subscribers, x.Fair) : ∀ x ∈ (act.book c).subscribers, x.Fair := by
  intro x hx
  cases act with
  | subscribe event handler =>
    rcases List.mem_append.1 hx with hx | hx
    · exact h x hx
    · obtain rfl := List.mem_singleton.1 hx
      obtain rfl : handler = .hear := hact
      exact trivial
  | unsubscribe number => exact h x (List.mem_filter.1 hx).1
  | bindRemarks =>
    rcases List.mem_append.1 hx with hx | hx
    · rcases List.mem_append.1 hx with hx | hx
      · exact h x hx
      · exact List.mem_singleton.1 hx ▸ rfl
    · exact List.mem_singleton.1 hx ▸ rfl
  | _ => exact h x hx

theorem Act.Keeps.book {c : Client} {act : Act} {numbers : Nat × Nat} (hact : act.Keeps numbers)
    {x : Subscriber} (hx : x ∈ c.subscribers) (hn : x.number = numbers.1 ∨ x.number = numbers.2) :
    x ∈ (act.book c).subscribers := by
  cases act with
  | subscribe event handler => exact List.mem_append_left _ hx
  | unsubscribe number =>
    refine List.mem_filter.2 ⟨hx, bne_iff_ne.2 fun he => ?_⟩
    rcases hn with hn | hn
    · exact hact.1 (he.symm.trans hn)
    · exact hact.2 (he.symm.trans hn)
  | bindRemarks => exact List.mem_append_left _ (List.mem_append_left _ hx)
  | _ => exact hx

theorem Bound.book {c : Client} {act : Act} {numbers : Nat × Nat} (h : Bound c numbers)
    (hhears : act.Hears) (hkeeps : act.Keeps numbers) : Bound (act.book c) numbers :=
  ⟨hhears.book h.fair, hkeeps.book h.marks (.inl rfl), hkeeps.book h.clears (.inr rfl)⟩

theorem Bound.congr {c d : Client} {numbers : Nat × Nat} (h : Bound c numbers)
    (hs : d.subscribers = c.subscribers) : Bound d numbers :=
  ⟨hs ▸ h.fair, hs ▸ h.marks, hs ▸ h.clears⟩

/-! ### The invariant -/

namespace Session
variable {σ : Type}

/-- The remarks shown once all that waits has been pumped. -/
def toShow (s : Session σ) : List Remark := heeded s.exchange.remarks s.coming

theorem toShow_worked (s : Session σ) (t : Turn σ) (left : List HostMessage) (heard : Nat) :
    (s.worked t left heard).toShow = heeded s.toShow t.sent := by
  rw [toShow, coming_worked, heeded_append]
  rfl

/-- Remarks are shown, and those to show are the verdict on the copy once the worker has looked at
it. -/
structure Showing (numbers : Nat × Nat) (s : Session Unit) : Prop where
  bound : Bound s.exchange.host.client numbers
  stirs : ∀ m ∈ s.exchange.waiting, m.Stirs
  told : s.exchange.host.client.attachment.isSome →
    s.heard ≠ 0 ∨ ∃ m ∈ s.exchange.waiting, m.tells
  current : s.heard = 0 ∨ s.exchange.worker.dirty = true ∨
    s.toShow = (checkBrackets s.exchange.worker.doc.lines).toList

namespace Showing
variable {numbers : Nat × Nat} {s s' : Session Unit} {act : Act}

theorem host (h : Showing numbers s) {ms : List HostMessage} (hm : HostMove s act s' ms)
    (hact : act.Allowed) (hhears : act.Hears)
    (hkeeps : act.Keeps numbers) : Showing numbers s' where
  bound := (h.bound.book hhears hkeeps).congr hm.subscribers
  stirs m hmem := by
    rw [hm.waiting] at hmem
    rcases List.mem_append.1 hmem with hmem | hmem
    · exact h.stirs m hmem
    · exact hm.posts.stirs hact m hmem
  told hattached := by
    rw [hm.heard, hm.waiting]
    have hold : s.exchange.host.client.attachment.isSome →
        s.heard ≠ 0 ∨ ∃ m ∈ s.exchange.waiting ++ ms, m.tells := fun ha =>
      (h.told ha).imp_right fun ⟨m, hmem, ht⟩ => ⟨m, List.mem_append_left _ hmem, ht⟩
    rcases hm.attached with hnone | hsame | ⟨m, hmem, ht⟩
    · exact absurd hattached (by simp [hnone])
    · exact hold (hsame ▸ hattached)
    · exact .inr ⟨m, List.mem_append_right _ hmem, ht⟩
  current := by
    rw [hm.heard, hm.worker, toShow, hm.coming, hm.remarks]
    exact h.current

theorem handled (h : Showing numbers s) {m : HostMessage} {ms : List HostMessage}
    (hm : s.exchange.waiting = m :: ms) :
    Showing numbers (s.worked (s.exchange.worker.handle linter m) ms
      (s.heard + [m].countP HostMessage.tells)) := by
  have hstirs := h.stirs
  have htold := h.told
  rw [hm] at hstirs htold
  refine ⟨h.bound.congr rfl, fun k hk => hstirs k (List.mem_cons_of_mem _ hk), ?_, ?_⟩
  · intro hattached
    rcases htold hattached with hheard | ⟨k, hk, ht⟩
    · exact .inl fun h0 => hheard (Nat.eq_zero_of_add_eq_zero_right h0)
    · rcases List.mem_cons.1 hk with rfl | hk
      · refine .inl ?_
        show s.heard + [k].countP HostMessage.tells ≠ 0
        rw [List.countP_cons_of_pos ht]
        exact Nat.succ_ne_zero _
      · exact .inr ⟨k, hk, ht⟩
  · cases ht : m.tells with
    | true => exact .inr (.inl (hstirs m List.mem_cons_self ht s.exchange.worker))
    | false =>
      obtain ⟨state, hw⟩ := s.exchange.worker.handle_quiet_eq linter ht
      have hcount : [m].countP HostMessage.tells = 0 := by simp [ht]
      rw [toShow_worked, heeded_of_shows? fun k hk => shows?_of_mem_sent hk, hcount]
      show s.heard = 0 ∨ (s.exchange.worker.handle linter m).follower.dirty = true ∨
        _ = (checkBrackets (s.exchange.worker.handle linter m).follower.doc.lines).toList
      rw [hw]
      exact h.current

theorem finished (h : Showing numbers s) :
    Showing numbers (s.worked (s.exchange.worker.finish linter) s.exchange.waiting s.heard) := by
  refine ⟨h.bound.congr rfl, h.stirs, h.told, ?_⟩
  rw [toShow_worked]
  show s.heard = 0 ∨ (s.exchange.worker.finish linter).follower.dirty = true ∨
    _ = (checkBrackets (s.exchange.worker.finish linter).follower.doc.lines).toList
  rw [Follower.finish_doc, Follower.finish]
  by_cases hd : s.exchange.worker.dirty = true
  · rw [if_pos hd]
    refine .inr (.inr ?_)
    show (verdict s.exchange.worker.doc).shows?.getD _ = _
    rw [shows?_verdict]
    rfl
  · rw [if_neg hd]
    exact h.current

/-- Every move keeps the remarks to show. -/
theorem move (h : Showing numbers s) {sent : List WorkerMessage} {effects : List Effect}
    (hmove : Move linter s act s' sent effects) (hact : act.Allowed) (hhears : act.Hears)
    (hkeeps : act.Keeps numbers) :
    Showing numbers s' := by
  cases hmove with
  | host hm => exact h.host hm hact hhears hkeeps
  | pump _ hc hms =>
    subst hc
    refine ⟨h.bound.congr rfl, h.stirs, h.told, ?_⟩
    have hcurrent := h.current
    rw [toShow, coming_eq hms] at hcurrent
    rw [h.bound.reactions]
    exact hcurrent
  | ending hc ho =>
    subst hc
    refine ⟨h.bound.congr rfl, h.stirs, h.told, ?_⟩
    rw [toShow, coming_ending s ho]
    exact h.current
  | idle => exact h
  | handle hm ht =>
    subst ht
    exact h.handled hm
  | finish ht =>
    subst ht
    exact h.finished

end Showing

/-- No document has been attached yet. -/
structure Fresh (s : Session Unit) : Prop where
  fair : ∀ x ∈ s.exchange.host.client.subscribers, x.Fair
  unattached : s.exchange.host.client.attachment = none
  quiet : ∀ m ∈ s.exchange.waiting, m.tells = false
  unheard : s.heard = 0

namespace Fresh
variable {s s' : Session Unit} {act : Act}

theorem start (config : Config) (docs : List (String × List Char)) (remarks : List Remark) :
    Fresh {start linter config docs with exchange.remarks := remarks} where
  fair _ hx := absurd hx List.not_mem_nil
  unattached := rfl
  quiet _ hm := List.mem_singleton.1 hm ▸ rfl
  unheard := rfl

/-- Nothing is told of a document before one is attached. -/
theorem move (h : Fresh s) {sent : List WorkerMessage} {effects : List Effect}
    (hmove : Move linter s act s' sent effects) (hact : act.Allowed) (hhears : act.Hears)
    (hattach : act.isAttach = false) : Fresh s' := by
  cases hmove with
  | host hm =>
    have hquiet := hm.posts.quiet hact hattach h.unattached
    refine ⟨?_, ?_, ?_, hm.heard.trans h.unheard⟩
    · rw [hm.subscribers]
      exact hhears.book h.fair
    · rcases hm.attached with hnone | hsame | ⟨m, hmem, ht⟩
      · exact hnone
      · exact hsame.trans h.unattached
      · exact absurd ((hquiet m hmem).symm.trans ht) nofun
    · intro m hmem
      rw [hm.waiting] at hmem
      exact (List.mem_append.1 hmem).elim (h.quiet m) (hquiet m)
  | pump _ hc =>
    subst hc
    exact ⟨h.fair, h.unattached, h.quiet, h.unheard⟩
  | ending hc =>
    subst hc
    exact ⟨h.fair, h.unattached, h.quiet, h.unheard⟩
  | idle => exact h
  | @handle m ms _ hm =>
    have hquiet := h.quiet
    rw [hm] at hquiet
    refine ⟨h.fair, h.unattached, fun k hk => hquiet k (List.mem_cons_of_mem _ hk), ?_⟩
    show s.heard + [m].countP HostMessage.tells = 0
    simp [h.unheard, hquiet m List.mem_cons_self]
  | finish => exact ⟨h.fair, h.unattached, h.quiet, h.unheard⟩

/-- When remarks are shown from then on, nothing about a document has been missed. -/
theorem bind (h : Fresh s) {sent : List WorkerMessage} {effects : List Effect}
    (hmove : Move linter s .bindRemarks s' sent effects) :
    Showing s.exchange.host.client.bindRemarks.result s' := by
  cases hmove with
  | pump hact => exact absurd hact (by simp)
  | host hm silent =>
    have hfresh := h.move (.host hm silent) trivial trivial rfl
    refine ⟨⟨hfresh.fair, ?_, ?_⟩, fun m hmem => ?_, fun hattached => ?_,
      .inl hfresh.unheard⟩
    · rw [hm.subscribers]
      exact List.mem_append_left _ (List.mem_append_right _ List.mem_cons_self)
    · rw [hm.subscribers]
      exact List.mem_append_right _ List.mem_cons_self
    · exact fun htells => absurd ((hfresh.quiet m hmem).symm.trans htells) nofun
    · exact absurd hattached (by simp [hfresh.unattached])

end Fresh

/-- **The remarks shown become the verdict on the document attached.** However the steps of a host
and its worker are mixed, as long as the client does not fail and remarks are shown from before the
first document on: when all messages have been handled and pumped and the worker has looked at its
copy, the remarks shown are the first fault of the document attached, or none if it has none. -/
theorem remarks_converge (config : Config) (docs : List (String × List Char))
    (remarks : List Remark) (before behind : List Act) (s t : Session Unit)
    (hs : s = run linter {start linter config docs with exchange.remarks := remarks} before)
    (ht : t = s.run linter (.bindRemarks :: behind)) (hdocs : ∀ p ∈ docs, '\r' ∉ p.2)
    (hacts : ∀ act ∈ before ++ behind, act.Allowed ∧ act.Genuine ∧ act.Hears)
    (hbefore : ∀ act ∈ before, act.isAttach = false)
    (hbehind : ∀ act ∈ behind, act.Keeps s.exchange.host.client.bindRemarks.result)
    (hphase : t.exchange.host.client.phase ≠ .faulted) (d : TextDocument)
    (hattached : t.exchange.host.attached? = some d) (hwaiting : t.exchange.waiting = [])
    (hinbox : t.exchange.host.client.inbox = []) (hdirty : t.exchange.worker.dirty = false) :
    t.exchange.remarks = (checkBrackets d.lines).toList := by
  have hsteps : ∀ act ∈ before ++ behind, act.Allowed ∧ act.Genuine :=
    fun act hact => ⟨(hacts act hact).1, (hacts act hact).2.1⟩
  have hfirst := (start_follows linter config hdocs).withRemarks remarks
  have hsphase : s.exchange.host.client.phase ≠ .faulted :=
    fun hf => hphase (ht ▸ run_failed hf _)
  -- before remarks are shown nothing is told of a document
  obtain ⟨hfollows, hfresh⟩ : Follows linter s ∧ Fresh s := by
    subst hs
    refine hfirst.run_keeps (P := fun s _ _ => Fresh s)
      (fun act hact => hsteps act (List.mem_append_left _ hact)) hsphase ?_ [] []
      (.start config docs remarks)
    intro act hact s s' _ _ _ _ hmove h
    obtain ⟨hallowed, -, hhears⟩ := hacts act (List.mem_append_left _ hact)
    exact h.move hmove hallowed hhears (hbefore act hact)
  rw [ht] at hphase
  obtain ⟨hfollows, hmove⟩ := hfollows.move_of_run .bindRemarks trivial trivial hphase
  obtain ⟨hfollows, hshowing⟩ : Follows linter t ∧
      Showing s.exchange.host.client.bindRemarks.result t := by
    subst ht
    refine hfollows.run_keeps
      (P := fun t _ _ => Showing s.exchange.host.client.bindRemarks.result t)
      (fun act hact => hsteps act (List.mem_append_right _ hact)) hphase ?_ [] []
      (hfresh.bind hmove)
    intro act hact s s' _ _ _ _ hmove h
    obtain ⟨hallowed, -, hhears⟩ := hacts act (List.mem_append_right _ hact)
    exact h.move hmove hallowed hhears (hbehind act hact)
  have hheard : t.heard ≠ 0 := by
    refine (hshowing.told ?_).resolve_right ?_
    · obtain ⟨b, hb, -⟩ := Option.bind_eq_some_iff.1 hattached
      rw [hb]
      rfl
    · rintro ⟨m, hm, -⟩
      rw [hwaiting] at hm
      exact List.not_mem_nil hm
  have hshow : t.toShow = t.exchange.remarks := by
    rw [toShow, coming, hinbox]
    rfl
  rw [← hshow, ← hfollows.copy_latest hwaiting hattached]
  refine (hshowing.current.resolve_left hheard).resolve_left ?_
  rw [hdirty]
  decide

/-- A document without text, while remarks from an earlier time are still shown. -/
def stale : Session Unit :=
  {start linter .default [("a", [])] with exchange.remarks := [⟨7, 7, "", .info⟩]}

/-- A bracket is opened before the worker has looked at its copy. -/
def opening : List Act :=
  [.handle, .attach "a", .handle, .edit "a" (.insert ⟨0, 0⟩ ['(']), .finish, .handle, .finish]

theorem remarks_converge_opening :
    (stale.run linter (.bindRemarks :: (opening ++ [.pump]))).exchange.remarks =
        (checkBrackets [['(']]).toList ∧
      checkBrackets [['(']] ≠ none := by
  have hdocs : ∀ p ∈ [("a", [])], '\r' ∉ p.2 := by decide
  have hacts : ∀ act ∈ opening ++ [.pump], act.Allowed ∧ act.Genuine ∧ act.Hears := by decide
  have hstart : Follows linter stale := (start_follows linter .default hdocs).withRemarks _
  obtain ⟨u, hu⟩ : ∃ u, u = stale.run linter (.bindRemarks :: opening) := ⟨_, rfl⟩
  obtain ⟨t, ht⟩ : ∃ t, t = stale.run linter (.bindRemarks :: (opening ++ [.pump])) := ⟨_, rfl⟩
  have hstage : u.exchange.host.attached? = some ⟨[['(']], [0], 1⟩ ∧ u.exchange.waiting = [] ∧
      u.exchange.worker.dirty = false ∧ u.exchange.host.client.phase ≠ .faulted ∧
      ∀ o ∈ u.exchange.host.client.inbox, o.message?.isSome := by
    rw [hu]
    decide +kernel
  obtain ⟨hattached, hwaiting, hdirty, hphase, hcome⟩ := hstage
  have hfollows : Follows linter u := by
    rw [hu] at hphase ⊢
    exact (run_follows hstart (by decide)).resolve_right hphase
  obtain ⟨ms, remarks, hpump⟩ := hfollows.step_pump hcome
  have htu : t = u.step linter .pump := by
    rw [ht, hu]
    exact List.foldl_append (l := Act.bindRemarks :: opening)
  rw [hpump] at htu
  have hremarks := remarks_converge .default [("a", [])] [⟨7, 7, "", .info⟩] []
    (opening ++ [.pump]) stale t rfl ht hdocs hacts (by decide) (by decide)
    (by rw [htu]; exact hphase) ⟨[['(']], [0], 1⟩ (by rw [htu]; exact hattached)
    (by rw [htu]; exact hwaiting) (by rw [htu]; rfl) (by rw [htu]; exact hdirty)
  have hplain : ∀ line ∈ [['(']], Lint.Plain Lexing.defaultCap line := by decide
  refine ⟨ht ▸ hremarks, ?_⟩
  rw [Ne, checkBrackets, Option.map_eq_none_iff, Lint.bracketFault, Lint.seekFault_eq_none_iff,
    Lint.chars_bracketCells hplain]
  decide

end Session

end CodeEditing.Worker
