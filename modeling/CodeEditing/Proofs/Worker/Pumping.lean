import CodeEditing.Proofs.Worker.Live
import CodeEditing.Proofs.Worker.Numbers

/-! What pumping does with the messages that wait.

Handling a message changes nothing of a client but the calls that wait (`Client.dispatch_message`),
so pumping messages is settling calls and reacting, one message after the other; at anything else that
comes from a worker, or when the worker is gone, the client fails for good (`Client.Pumping`).
Otherwise a client that is live stays so with the same document, and none of what it does reaches the
worker or a document (`Client.pump_steady`). -/
namespace CodeEditing.Worker

open Json (Value)

/-- The answer that whoever made a call gets, with the command. -/
def Effect.answer? : Effect → Option (String × Value)
  | .answered command data => some (command, data)
  | _ => none

theorem Attempt.andThen_assoc (r : Attempt α) (f : Client → α → Attempt β)
    (g : Client → β → Attempt γ) :
    (r.andThen f).andThen g = r.andThen fun c a => (f c a).andThen g := by
  unfold andThen
  cases r.result with
  | error e => rfl
  | ok a =>
    dsimp only
    cases (f r.client a).result with
    | error e => rfl
    | ok b => simp only [List.append_assoc]

theorem Attempt.andThen_congr {r : Attempt α} {f g : Client → α → Attempt β}
    (h : ∀ a, r.result = .ok a → f r.client a = g r.client a) : r.andThen f = r.andThen g := by
  unfold andThen
  cases hr : r.result with
  | error e => rfl
  | ok a => simp only [h a hr]

/-- The number of the call that a message answers. -/
def WorkerMessage.number? : WorkerMessage → Option Nat
  | call id _ => some id
  | _ => none

def Output.message? : Output → Option WorkerMessage
  | message m => some m
  | _ => none

theorem Output.filterMap_message? (ms : List WorkerMessage) :
    (ms.map Output.message).filterMap Output.message? = ms := by
  induction ms with
  | nil => rfl
  | cons m ms ih => exact congrArg (m :: ·) ih

/-- The messages in front of the first word that the worker has broken down or is at its end. -/
def messagesAhead : List Output → List WorkerMessage
  | .message m :: waiting => m :: messagesAhead waiting
  | _ => []

/-- What makes a client fail when it handles what waits, if anything does. -/
def breach? (farEnd : Bool) : List Output → Option String
  | .message _ :: waiting => breach? farEnd waiting
  | .fault reason :: _ => some reason
  | .exited :: _ => some "worker exited"
  | [] => if farEnd then none else some "worker disconnected"

namespace Client
variable {c : Client}

/-- What waits to be pumped. -/
def inbox (c : Client) : List Output := (c.link.map Link.inbox).getD []

theorem taking_eq {l : Link} (hl : c.link = some l) (waiting : List Output) :
    c.taking waiting = {c with link := some ⟨waiting, l.farEnd⟩} := by
  rw [taking, hl]
  rfl

theorem Live.link_eq (h : c.Live) : c.link = some ⟨c.inbox, true⟩ := by
  obtain ⟨inbox, hl⟩ := h.link
  rw [Client.inbox, hl]
  rfl

/-! ### One message -/

/-- The calls that wait behind a message. -/
def settled (pending : List (Nat × String)) : WorkerMessage → List (Nat × String)
  | .call id _ => pending.filter (·.1 != id)
  | _ => pending

/-- What a client does about a message. -/
def reaction (c : Client) (m : WorkerMessage) : List Effect := (c.dispatch (.message m)).effects

/-- Only the call that a message answers is settled. -/
theorem lookup_settled (pending : List (Nat × String)) (m : WorkerMessage) (n : Nat) :
    (settled pending m).lookup n = if m.number? = some n then none else pending.lookup n := by
  cases m with
  | log data => rfl
  | event name data => rfl
  | call id data =>
    rw [settled, lookup_filter_ne]
    simp only [WorkerMessage.number?, Option.some.injEq, eq_comm]

theorem settled_sublist (pending : List (Nat × String)) (m : WorkerMessage) :
    (settled pending m).Sublist pending := by
  cases m with
  | call id data => exact List.filter_sublist
  | _ => exact List.Sublist.refl _

theorem foldl_settled_sublist (pending : List (Nat × String)) (ms : List WorkerMessage) :
    (ms.foldl settled pending).Sublist pending := by
  induction ms generalizing pending with
  | nil => exact List.Sublist.refl pending
  | cons m ms ih => exact (ih _).trans (settled_sublist pending m)

theorem dispatch_message (c : Client) (m : WorkerMessage) : c.dispatch (.message m) =
    ⟨{c with pending := settled c.pending m}, .ok (), c.reaction m⟩ := by
  cases m with
  | log data => rfl
  | event name data => rfl
  | call id data =>
    unfold reaction dispatch settled
    dsimp only
    cases hl : c.pending.lookup id with
    | some command => rfl
    | none => rw [filter_of_lookup_eq_none hl]

/-- What a client does about a message has nothing to do with what waits at its link. -/
theorem reaction_link (c : Client) (l : Option Link) (m : WorkerMessage) :
    reaction {c with link := l} m = c.reaction m := by
  cases m with
  | log data => rfl
  | event name data => rfl
  | call id data =>
    simp only [reaction, dispatch]
    cases c.pending.lookup id <;> rfl

/-- Telling subscribers of an event answers no call. -/
theorem answer?_of_mem_notify {event : String} {data : Value} {e : Effect}
    (he : e ∈ c.notify event data) : e.answer? = none := by
  obtain ⟨s, -, rfl⟩ := List.mem_map.1 he
  rcases s.react_cases data with h | ⟨remarks, h⟩ | ⟨warning, h⟩ <;> rw [h] <;> rfl

/-- A call that waits under the number of a response gets an answer. -/
theorem reaction_call (c : Client) (id : Nat) (data : Value) : c.reaction (.call id data) =
    (c.pending.lookup id).toList.map fun command => @Effect.answered id command data := by
  simp only [reaction, dispatch]
  cases c.pending.lookup id <;> rfl

/-! ### All that wait -/

/-- What a client does about messages, one after the other. -/
def reactions (c : Client) : List WorkerMessage → List Effect
  | [] => []
  | m :: ms => c.reaction m ++ reactions {c with pending := settled c.pending m} ms

theorem reactions_link (c : Client) (l : Option Link) (ms : List WorkerMessage) :
    reactions {c with link := l} ms = c.reactions ms := by
  induction ms generalizing c with
  | nil => rfl
  | cons m ms ih => exact congrArg₂ (· ++ ·) (c.reaction_link l m) (ih {c with pending := _})

/-- Neither a document nor the worker is touched. -/
theorem reactions_quiet (c : Client) (ms : List WorkerMessage) : ∀ e ∈ c.reactions ms, e.Quiet := by
  induction ms generalizing c with
  | nil => exact fun e he => absurd he List.not_mem_nil
  | cons m ms ih =>
    intro e he
    rcases List.mem_append.1 he with he | he
    · cases m with
      | log data => exact List.mem_singleton.1 he ▸ trivial
      | event name data => exact c.notify_quiet name data e he
      | call id data =>
        simp only [reaction, dispatch] at he
        split at he
        · exact List.mem_singleton.1 he ▸ trivial
        · exact absurd he List.not_mem_nil
    · exact ih _ e he

/-- A client that has pumped messages. -/
def pumped (c : Client) (ms : List WorkerMessage) : Client :=
  {c with link := some ⟨[], true⟩, pending := ms.foldl settled c.pending}

/-- What waits is handled up to what makes the client fail. -/
theorem pumpAll_eq {farEnd : Bool} {waiting : List Output}
    (hl : c.link = some ⟨waiting, farEnd⟩) (handled : Nat) :
    c.pumpAll farEnd handled waiting =
      match breach? farEnd waiting with
      | none => ⟨c.pumped (messagesAhead waiting), .ok (handled + waiting.length),
          c.reactions (messagesAhead waiting)⟩
      | some reason => ⟨c.lost .faulted, .error (.fault reason),
          c.reactions (messagesAhead waiting) ++
            .failure (Refusal.fault reason).message :: c.releases⟩ := by
  induction waiting generalizing c handled with
  | nil =>
    cases farEnd with
    | true =>
      obtain ⟨config, phase, link, nextCall, pending, subscribers, nextSubscriber, attachment⟩ := c
      cases hl
      rfl
    | false =>
      rw [pumpAll, if_neg Bool.false_ne_true, failing_eq]
      rfl
  | cons o waiting ih =>
    cases o with
    | fault reason =>
      rw [pumpAll, dispatch, failing_eq]
      rfl
    | exited =>
      rw [pumpAll, dispatch, failing_eq]
      rfl
    | message m =>
      let next : Client :=
        {c with link := some ⟨waiting, farEnd⟩, pending := settled c.pending m}
      have hmore (ms : List WorkerMessage) : next.reactions ms =
          reactions {c with pending := settled c.pending m} ms :=
        reactions_link {c with pending := settled c.pending m} _ ms
      have hcount : handled + 1 + waiting.length = handled + (waiting.length + 1) := by omega
      rw [pumpAll, taking_eq hl, dispatch_message, reaction_link, Attempt.andThen]
      dsimp only
      rw [ih (c := next) rfl (handled + 1), messagesAhead, breach?]
      cases breach? farEnd waiting <;>
        simp only [hmore, reactions, List.append_assoc, List.length_cons, hcount] <;> rfl

/-- What waits is the messages ahead and what makes the client fail, if anything does. -/
theorem breach?_cases (farEnd : Bool) (waiting : List Output) :
    (breach? farEnd waiting = none ∧ farEnd = true ∧
        waiting = (messagesAhead waiting).map .message) ∨
      ∃ reason rest, breach? farEnd waiting = some reason ∧
        waiting = (messagesAhead waiting).map .message ++ rest ∧
        (farEnd = false ∨ ∃ o ∈ rest, o.message? = none) := by
  induction waiting with
  | nil =>
    cases farEnd with
    | true => exact .inl ⟨rfl, rfl, rfl⟩
    | false => exact .inr ⟨_, [], rfl, rfl, .inl rfl⟩
  | cons o waiting ih =>
    cases o with
    | fault reason => exact .inr ⟨_, _, rfl, rfl, .inr ⟨_, List.mem_cons_self, rfl⟩⟩
    | exited => exact .inr ⟨_, _, rfl, rfl, .inr ⟨_, List.mem_cons_self, rfl⟩⟩
    | message m =>
      rcases ih with ⟨hnone, hend, hall⟩ | ⟨reason, rest, hsome, hall, hcause⟩
      · exact .inl ⟨hnone, hend, congrArg (Output.message m :: ·) hall⟩
      · exact .inr ⟨reason, rest, hsome, congrArg (Output.message m :: ·) hall, hcause⟩

/-- What pumping comes to. -/
inductive Pumping (c : Client) (farEnd : Bool) (handled : Nat) (waiting : List Output) :
    Attempt Nat → Prop
  /-- Messages are handled, and the worker still holds its end. -/
  | well (ms : List WorkerMessage) (hms : waiting = ms.map .message) (hend : farEnd = true) :
    Pumping c farEnd handled waiting ⟨c.pumped ms, .ok (handled + ms.length), c.reactions ms⟩
  /-- Behind some messages the client fails. -/
  | fails (ms : List WorkerMessage) {rest : List Output} {reason : String}
    (hms : waiting = ms.map .message ++ rest)
    (hend : farEnd = false ∨ ∃ o ∈ rest, o.message? = none) :
    Pumping c farEnd handled waiting
      ⟨c.lost .faulted, .error (.fault reason),
        c.reactions ms ++ .failure (Refusal.fault reason).message :: c.releases⟩

theorem pumpAll_pumping (farEnd : Bool) (handled : Nat) {waiting : List Output}
    (hl : c.link = some ⟨waiting, farEnd⟩) :
    Pumping c farEnd handled waiting (c.pumpAll farEnd handled waiting) := by
  rw [pumpAll_eq hl]
  rcases breach?_cases farEnd waiting with ⟨hnone, hend, hall⟩ | ⟨reason, rest, hsome, hall, hcause⟩
  · have hcount : waiting.length = (messagesAhead waiting).length := by
      conv_lhs => rw [hall, List.length_map]
    rw [hnone, hcount]
    exact .well _ hall hend
  · rw [hsome]
    exact .fails _ hall hcause

theorem pump_pumping {l : Link} (hl : c.link = some l) (hp : c.phase ≠ .faulted) :
    Pumping c l.farEnd 0 l.inbox c.pump := by
  rw [pump, if_neg hp, hl]
  exact pumpAll_pumping l.farEnd 0 hl

/-- While the worker holds its end, only what is no message makes the client fail. -/
theorem Live.pump_cases (h : c.Live) :
    c.pump.client.Failed ∧ (∃ o ∈ c.inbox, o.message? = none) ∨
      ∃ ms : List WorkerMessage, c.inbox = ms.map .message ∧
        c.pump = ⟨c.pumped ms, .ok ms.length, c.reactions ms⟩ := by
  have hpump := pump_pumping h.link_eq h.not_failed
  dsimp only at hpump
  generalize c.pump = r at hpump
  cases hpump with
  | well ms hms =>
    refine .inr ⟨ms, hms, ?_⟩
    rw [Nat.zero_add]
  | @fails ms rest reason hms hend =>
    obtain ⟨o, ho, hnone⟩ := hend.resolve_left Bool.noConfusion
    exact .inl ⟨rfl, o, hms ▸ List.mem_append_right _ ho, hnone⟩

/-- Unless the client has failed, it is live with the same document and has touched nothing. -/
def Steady (c : Client) (r : Attempt α) : Prop :=
  match r.result with
  | .error _ => r.client.Failed
  | .ok _ => r.client.Live ∧ r.client.attachment = c.attachment ∧ ∀ e ∈ r.effects, e.Quiet

theorem pump_steady (h : c.Live) : c.Steady c.pump := by
  have hpump := pump_pumping h.link_eq h.not_failed
  generalize c.pump = r at hpump
  cases hpump with
  | well ms hms hend => exact ⟨⟨h.phase, [], rfl⟩, rfl, c.reactions_quiet ms⟩
  | fails ms hms hend => exact rfl

/-- Handling one thing more before makes the number one greater. -/
theorem pumpAll_succ (c : Client) (farEnd : Bool) (handled : Nat) (waiting : List Output) :
    c.pumpAll farEnd (handled + 1) waiting =
      (c.pumpAll farEnd handled waiting).andThen fun c n => ⟨c, .ok (1 + n), []⟩ := by
  induction waiting generalizing c handled with
  | nil =>
    unfold pumpAll
    split
    · rw [Nat.add_comm]
      rfl
    · rfl
  | cons o waiting ih =>
    simp only [pumpAll, Attempt.andThen_assoc, ih]

/-- Waiting makes no difference to what is pumped. -/
theorem pumpWaiting_eq (c : Client) : c.pumpWaiting = c.pump := by
  by_cases hp : c.phase = .faulted
  · rw [pumpWaiting, pump, if_pos hp, if_pos hp]
  · conv_rhs => rw [pump, if_neg hp]
    rw [pumpWaiting, if_neg hp]
    cases hl : c.link with
    | none => rfl
    | some l =>
      obtain ⟨inbox, farEnd⟩ := l
      cases inbox with
      | nil => rfl
      | cons o waiting =>
        dsimp only
        rw [Attempt.andThen_assoc, pumpAll, taking_eq hl]
        cases o with
        | fault reason => rfl
        | exited => rfl
        | message m =>
          rw [dispatch_message]
          refine Attempt.andThen_congr fun _ _ => ?_
          -- a message leaves the phase, so what is left is pumped
          rw [pump, if_neg hp, pumpAll_succ]

theorem pumpWaiting_steady (h : c.Live) : c.Steady c.pumpWaiting :=
  c.pumpWaiting_eq ▸ pump_steady h

end Client

end CodeEditing.Worker
