import Mathlib.Data.List.Induction
import Mathlib.Data.List.Nodup
import CodeEditing.Proofs.Worker.Life

/-! What becomes of calls.

The life of a client is told as a story of small happenings (`Host.story`): a pump is as many of them as
it handles outputs. A call awaits its answer (`Awaits`) from the moment it is accepted until a response
under its number is handled, or the client is over. `Books` says what the client's books have to do
with the story so far; each of the few things that can happen (`Client.Turn`) keeps it and answers the
call that awaits it and no other. `Host.callbacks_run_once` says so of every life. -/
namespace CodeEditing.Worker

open Json (Value)

/-! ### Happenings -/

/-- What happens to the calls of a client. -/
inductive Incident where
  /-- A call is accepted. -/
  | called (id : Nat) (command : String)
  /-- Something that has come from the worker is handled. -/
  | took (o : Output)
  | other

/-- The call that is accepted. -/
def Incident.called? : Incident → Option Nat
  | called id _ => some id
  | _ => none

/-- The number under which a response comes. -/
def Incident.number? : Incident → Option Nat
  | took (.message m) => m.number?
  | _ => none

/-- Something that happens, the client behind it, and the effects. -/
structure Happening where
  incident : Incident
  client : Client
  effects : List Effect

/-- The answers among effects, with the commands they answer. -/
def answers (effects : List Effect) : List (String × Value) := effects.filterMap Effect.answer?

def Happening.answers (x : Happening) : List (String × Value) := Worker.answers x.effects

/-- The client behind all that happens. -/
def Client.behind (c : Client) (t : List Happening) : Client :=
  (t.getLast?.map Happening.client).getD c

namespace Client

end Client

/-- The number of an accepted call. -/
def numberOf : Except Refusal (Option Nat) → Option Nat
  | .ok n => n
  | .error _ => none

/-- What happens in a deed that pumps nothing. -/
def Deed.happening (d : Deed) (r : Attempt (Option Nat)) : Happening :=
  ⟨match d, numberOf r.result with
    | .call command _, some id => .called id command
    | _, _ => .other,
    r.client, r.effects⟩

namespace Host

end Host

/-- Failed, or given up. -/
def Phase.isOver : Phase → Bool
  | terminated | faulted => true
  | uninitialized | initializing | attached => false

/-- A call awaits its answer: it has been accepted, and since then no response under its number has been
handled, and the client has not been over. -/
def Awaits (t : List Happening) (id : Nat) (command : String) : Prop :=
  ∃ before x behind, t = before ++ x :: behind ∧ x.incident = .called id command ∧
    ∀ y ∈ behind, y.incident.number? ≠ some id ∧ y.client.phase.isOver = false

theorem not_awaits_nil (id : Nat) (command : String) : ¬ Awaits [] id command := by
  rintro ⟨before, x, behind, ht, -⟩
  cases before <;> cases ht

theorem awaits_concat {t : List Happening} {x : Happening} {id : Nat} {command : String} :
    Awaits (t ++ [x]) id command ↔ x.incident = .called id command ∨
      Awaits t id command ∧ x.incident.number? ≠ some id ∧ x.client.phase.isOver = false := by
  constructor
  · rintro ⟨before, y, behind, ht, hy, hbehind⟩
    rcases List.eq_nil_or_concat behind with rfl | ⟨behind, z, rfl⟩
    · obtain ⟨-, hxy⟩ := List.append_inj' ht rfl
      exact .inl (List.singleton_injective hxy ▸ hy)
    · rw [List.concat_eq_append, ← List.cons_append, ← List.append_assoc] at ht
      obtain ⟨rfl, hxz⟩ := List.append_inj' ht rfl
      cases List.singleton_injective hxz
      refine .inr ⟨⟨before, y, behind, rfl, hy, fun w hw => hbehind w ?_⟩, hbehind x ?_⟩
      · exact List.concat_eq_append ▸ List.mem_append_left _ hw
      · exact List.concat_eq_append ▸ List.mem_append_right _ (List.mem_singleton.2 rfl)
  · rintro (hx | ⟨⟨before, y, behind, rfl, hy, hbehind⟩, hx⟩)
    · exact ⟨t, x, [], rfl, hx, fun _ hz => absurd hz List.not_mem_nil⟩
    · refine ⟨before, y, behind ++ [x], by simp, hy, fun z hz => ?_⟩
      rcases List.mem_append.1 hz with hz | hz
      · exact hbehind z hz
      · exact List.mem_singleton.1 hz ▸ hx

/-- The calls accepted in a story, by their numbers. -/
def calls (t : List Happening) : List Nat := t.filterMap (·.incident.called?)

/-- All answers in a story. -/
def allAnswers (t : List Happening) : List (String × Value) := t.flatMap Happening.answers

/-! ### One happening -/

namespace Client
variable {c : Client}

/-- The few things that can happen to the calls of a client. -/
inductive Turn (c : Client) : Happening → Prop
  /-- A call is accepted. -/
  | calls {command : String} {effects : List Effect} (hp : c.phase.isOver = false)
    (he : answers effects = []) :
    Turn c ⟨.called c.nextCall command,
      {c with nextCall := c.nextCall + 1, pending := c.pending ++ [(c.nextCall, command)]}, effects⟩
  /-- A message is handled. -/
  | takes {m : WorkerMessage} {link : Option Link} (hp : c.phase.isOver = false) :
    Turn c ⟨.took (.message m), {c with link, pending := settled c.pending m}, c.reaction m⟩
  /-- The client is over. -/
  | ends {x : Happening} (hx : x.incident = .other ∨ ∃ o, x.incident = .took o ∧ o.message? = none)
    (hp : x.client.phase.isOver = true) (hpending : x.client.pending = [])
    (he : x.answers = []) : Turn c x
  /-- The calls are left alone. -/
  | keeps {x : Happening} (hx : x.incident = .other) (hp : x.client.phase.isOver = c.phase.isOver)
    (hpending : x.client.pending = c.pending) (hnext : x.client.nextCall = c.nextCall)
    (he : x.answers = []) : Turn c x

/-- One thing happens after the other. -/
def Turns (c : Client) : List Happening → Prop
  | [] => True
  | x :: t => c.Turn x ∧ x.client.Turns t

theorem behind_cons (c : Client) (x : Happening) (t : List Happening) :
    c.behind (x :: t) = x.client.behind t := by
  unfold behind
  cases t with
  | nil => rfl
  | cons y t => rw [List.getLast?_cons_cons, List.getLast?_cons]; rfl

theorem turns_append (c : Client) (s t : List Happening) :
    c.Turns (s ++ t) ↔ c.Turns s ∧ (c.behind s).Turns t := by
  induction s generalizing c with
  | nil => exact ⟨fun h => ⟨trivial, h⟩, And.right⟩
  | cons x s ih =>
    rw [behind_cons]
    exact (and_congr_right' (ih x.client)).trans and_assoc.symm

/-- Once a client is over it stays so, and nobody gets an answer. -/
theorem Turns.gone {t : List Happening} (h : c.Turns t) (hp : c.phase.isOver = true) :
    ∀ x ∈ t, x.answers = [] := by
  induction t generalizing c with
  | nil => exact fun _ hx => absurd hx List.not_mem_nil
  | cons x t ih =>
    obtain ⟨hx, ht⟩ := h
    have hnot : ¬ c.phase.isOver = false := by simp [hp]
    have hover : x.client.phase.isOver = true ∧ x.answers = [] := by
      cases hx with
      | calls hlive => exact absurd hlive hnot
      | takes hlive => exact absurd hlive hnot
      | ends hx hend hpending he => exact ⟨hend, he⟩
      | keeps hx hsame hpending hnext he => exact ⟨hsame.trans hp, he⟩
    intro y hy
    rcases List.mem_cons.1 hy with rfl | hy
    · exact hover.2
    · exact ih ht hover.1 y hy

/-! ### Responses -/

/-- A response answers the call that waits under its number; other messages answer nothing. -/
theorem answers_message (c : Client) (m : WorkerMessage) : answers (c.reaction m) =
    match m with
    | .call id data => (c.pending.lookup id).toList.map fun command => (command, data)
    | _ => [] := by
  cases m with
  | log data => rfl
  | event name data => exact List.filterMap_eq_nil_iff.2 fun e he => answer?_of_mem_notify he
  | call id data =>
    show answers (c.reaction (.call id data)) = (c.pending.lookup id).toList.map _
    rw [reaction_call]
    cases c.pending.lookup id <;> rfl

theorem mem_settled {pending : List (Nat × String)} {m : WorkerMessage} {id : Nat}
    {command : String} : (id, command) ∈ settled pending m ↔
      (id, command) ∈ pending ∧ m.number? ≠ some id := by
  cases m with
  | log data => simp [settled, WorkerMessage.number?]
  | event name data => simp [settled, WorkerMessage.number?]
  | call n data =>
    rw [settled, List.mem_filter, WorkerMessage.number?, bne_iff_ne]
    exact and_congr_right' (not_congr (eq_comm.trans Option.some_inj.symm))

/-- Every answer settles one call. -/
theorem length_settled (hn : (c.pending.map Prod.fst).Nodup) (m : WorkerMessage) :
    (settled c.pending m).length + (answers (c.reaction m)).length = c.pending.length := by
  rw [answers_message]
  cases m with
  | log data => rfl
  | event name data => rfl
  | call id data =>
    rw [settled]
    cases hl : c.pending.lookup id with
    | none =>
      rw [filter_of_lookup_eq_none hl]
      simp [hl]
    | some command =>
      simp only [hl]
      exact length_filter_ne hn (mem_of_lookup hl)

end Client

/-! ### The books -/

theorem calls_concat (t : List Happening) (x : Happening) :
    calls (t ++ [x]) = calls t ++ x.incident.called?.toList := by
  unfold calls
  rw [List.filterMap_append]
  cases hx : x.incident.called? <;> simp [hx]

theorem calls_concat_of_none {t : List Happening} {x : Happening} (hx : x.incident.called? = none) :
    calls (t ++ [x]) = calls t := by
  rw [calls_concat, hx, Option.toList_none, List.append_nil]

theorem allAnswers_concat (t : List Happening) (x : Happening) :
    allAnswers (t ++ [x]) = allAnswers t ++ x.answers := by
  simp [allAnswers]

/-- What the books of a client have to do with what has happened. -/
structure Books (t : List Happening) (c : Client) : Prop where
  numbers : calls t = List.range' 1 (calls t).length
  next : c.phase.isOver = false → c.nextCall = (calls t).length + 1
  below : ∀ p ∈ c.pending, p.1 < c.nextCall
  nodup : (c.pending.map Prod.fst).Nodup
  awaits : ∀ id command, (id, command) ∈ c.pending ↔ Awaits t id command
  count : c.phase.isOver = false →
    c.pending.length + (allAnswers t).length = (calls t).length
  gone : c.phase.isOver = true → c.pending = []

namespace Books
variable {t : List Happening} {c : Client} {x : Happening}

theorem ofConfig (config : Config) : Books [] (.ofConfig config) where
  numbers := rfl
  next _ := rfl
  below _ hp := absurd hp List.not_mem_nil
  nodup := .nil
  awaits id command := iff_of_false List.not_mem_nil (not_awaits_nil id command)
  count _ := rfl
  gone _ := rfl

theorem called (h : Books t c) {command : String} {effects : List Effect}
    (hp : c.phase.isOver = false) (he : answers effects = []) :
    let c' := {c with
      nextCall := c.nextCall + 1, pending := c.pending ++ [(c.nextCall, command)]}
    Books (t ++ [⟨.called c.nextCall command, c', effects⟩]) c' := by
  intro c'
  let x : Happening := ⟨.called c.nextCall command, c', effects⟩
  have hcalls : calls (t ++ [x]) = calls t ++ [c.nextCall] := calls_concat t x
  have hanswers : allAnswers (t ++ [x]) = allAnswers t := by
    rw [allAnswers_concat]
    exact (congrArg (allAnswers t ++ ·) he).trans (List.append_nil _)
  have hnext := h.next hp
  constructor
  · rw [hcalls, List.length_append, List.length_singleton, List.range'_1_concat, ← h.numbers, hnext,
      Nat.add_comm]
  · intro _
    rw [hcalls, List.length_append, List.length_singleton, ← hnext]
  · exact below_concat (a := (c.nextCall, command)) Prod.fst h.below
  · exact nodup_map_concat (a := (c.nextCall, command)) Prod.fst h.nodup h.below
  · intro id other
    have hx : (id, other) = (c.nextCall, command) ↔ x.incident = .called id other := by
      simp [x, eq_comm]
    have hstill : Awaits t id other ↔
        Awaits t id other ∧ x.incident.number? ≠ some id ∧ x.client.phase.isOver = false :=
      ⟨fun ha => ⟨ha, nofun, hp⟩, And.left⟩
    rw [awaits_concat, ← hstill, ← hx, ← h.awaits, or_comm, ← List.mem_singleton, ← List.mem_append]
  · intro _
    have hcount := h.count hp
    rw [hanswers, hcalls]
    show (c.pending ++ [(c.nextCall, command)]).length + _ = _
    simp only [List.length_append, List.length_singleton]
    omega
  · intro hover
    exact absurd (hp.symm.trans hover) Bool.noConfusion

theorem took (h : Books t c) {m : WorkerMessage} {link : Option Link}
    (hp : c.phase.isOver = false) :
    let c' := {c with link, pending := Client.settled c.pending m}
    Books (t ++ [⟨.took (.message m), c', c.reaction m⟩]) c' := by
  intro c'
  let x : Happening := ⟨.took (.message m), c', c.reaction m⟩
  have hcalls : calls (t ++ [x]) = calls t := calls_concat_of_none rfl
  have hfewer := Client.settled_sublist c.pending m
  constructor
  · exact hcalls ▸ h.numbers
  · rw [hcalls]
    exact h.next
  · exact fun p hmem => h.below p (hfewer.subset hmem)
  · exact h.nodup.sublist (hfewer.map _)
  · intro id command
    have hstill : Awaits (t ++ [x]) id command ↔ Awaits t id command ∧ m.number? ≠ some id :=
      awaits_concat.trans
        ⟨fun ha => (ha.resolve_left nofun).imp_right And.left, fun ha => .inr ⟨ha.1, ha.2, hp⟩⟩
    rw [hstill, ← h.awaits]
    exact Client.mem_settled
  · intro _
    have hcount := h.count hp
    have hsettled := Client.length_settled h.nodup m
    have hanswers : (allAnswers (t ++ [x])).length =
        (allAnswers t).length + (answers (c.reaction m)).length := by
      rw [allAnswers_concat, List.length_append]
      rfl
    rw [hanswers, hcalls]
    show (Client.settled c.pending m).length + _ = _
    omega
  · intro hover
    exact absurd (hp.symm.trans hover) Bool.noConfusion

theorem ended (h : Books t c) (hcalled : x.incident.called? = none)
    (hp : x.client.phase.isOver = true) (hpending : x.client.pending = []) :
    Books (t ++ [x]) x.client := by
  have hcalls : calls (t ++ [x]) = calls t := calls_concat_of_none hcalled
  have hnot : ¬ x.client.phase.isOver = false := by simp [hp]
  constructor
  · exact hcalls ▸ h.numbers
  · exact fun hlive => absurd hlive hnot
  · exact hpending ▸ fun _ hmem => absurd hmem List.not_mem_nil
  · exact hpending ▸ .nil
  · intro id command
    rw [hpending, awaits_concat]
    refine iff_of_false List.not_mem_nil (not_or.2 ⟨fun hx => ?_, fun ha => hnot ha.2.2⟩)
    rw [hx] at hcalled
    cases hcalled
  · exact fun hlive => absurd hlive hnot
  · exact fun _ => hpending

theorem kept (h : Books t c) (hx : x.incident = .other)
    (hp : x.client.phase.isOver = c.phase.isOver) (hpending : x.client.pending = c.pending)
    (hnext : x.client.nextCall = c.nextCall) (he : x.answers = []) : Books (t ++ [x]) x.client := by
  have hcalls : calls (t ++ [x]) = calls t := calls_concat_of_none (by rw [hx]; rfl)
  have hanswers : allAnswers (t ++ [x]) = allAnswers t := by
    rw [allAnswers_concat, he, List.append_nil]
  constructor
  · exact hcalls ▸ h.numbers
  · rw [hp, hnext, hcalls]
    exact h.next
  · rw [hpending, hnext]
    exact h.below
  · exact hpending ▸ h.nodup
  · intro id command
    rw [hpending, awaits_concat, hx, hp]
    refine ⟨fun hmem => .inr ⟨(h.awaits id command).1 hmem, nofun, ?_⟩, fun ha =>
      (h.awaits id command).2 (ha.resolve_left nofun).1⟩
    refine Bool.eq_false_iff.2 fun hover => ?_
    rw [h.gone hover] at hmem
    exact absurd hmem List.not_mem_nil
  · rw [hp, hpending, hanswers, hcalls]
    exact h.count
  · rw [hp, hpending]
    exact h.gone

/-- Whatever happens, the books are kept. -/
theorem turn (h : Books t c) (hx : c.Turn x) : Books (t ++ [x]) x.client := by
  cases hx with
  | calls hp he => exact h.called hp he
  | takes hp => exact h.took hp
  | ends hx hp hpending he =>
    refine h.ended ?_ hp hpending
    rcases hx with hx | ⟨o, hx, -⟩ <;> rw [hx] <;> rfl
  | keeps hx hp hpending hnext he => exact h.kept hx hp hpending hnext he

theorem turns (h : Books t c) {more : List Happening} (hmore : c.Turns more) :
    Books (t ++ more) (c.behind more) := by
  induction more generalizing t c with
  | nil => rwa [List.append_nil]
  | cons x more ih =>
    rw [List.append_cons, Client.behind_cons]
    exact ih (h.turn hmore.1) hmore.2

end Books

/-! ### Who gets an answer -/

/-- What may be said of each of the things that happen, with what happens before and behind it, and the
client it happens to: a response answers the call that awaits it, and nothing else answers a call; no
response answers the call again; a response that no call awaits changes nothing; and once the client
is over no call waits and none is answered. -/
structure Happening.Honest (x : Happening) (before behind : List Happening) (c : Client) : Prop where
  runs : ∀ id command data, x.incident = .took (.message (.call id data)) →
    Awaits before id command → x.answers = [(command, data)]
  only : ∀ command data, (command, data) ∈ x.answers →
    ∃ id, x.incident = .took (.message (.call id data)) ∧ Awaits before id command
  once : ∀ id, x.incident.number? = some id → x.answers ≠ [] →
    ∀ y ∈ behind, y.incident.number? = some id → y.answers = []
  ignored : ∀ id data, x.incident = .took (.message (.call id data)) →
    (∀ command, ¬ Awaits before id command) → x.answers = [] ∧ x.client.pending = c.pending
  gone : x.client.phase.isOver = true → x.client.pending = [] ∧ ∀ y ∈ behind, y.answers = []

theorem mem_calls_of_awaits {t : List Happening} {id : Nat} {command : String}
    (h : Awaits t id command) : id ∈ calls t := by
  obtain ⟨before, x, behind, rfl, hx, -⟩ := h
  refine List.mem_filterMap.2 ⟨x, List.mem_append_right _ List.mem_cons_self, ?_⟩
  rw [hx]
  rfl

/-- What awaits its answer behind a response has been called behind it. -/
theorem Awaits.behind {before mid : List Happening} {x : Happening} {id : Nat} {command : String}
    (h : Awaits (before ++ x :: mid) id command) (hx : x.incident.number? = some id) :
    Awaits mid id command := by
  induction mid using List.reverseRecOn with
  | nil =>
    rcases awaits_concat.1 h with hc | ⟨-, hne, -⟩
    · rw [hc] at hx
      cases hx
    · exact absurd hx hne
  | append_singleton mid y ih =>
    rw [← List.cons_append, ← List.append_assoc, awaits_concat] at h
    exact awaits_concat.2 (h.imp_right fun ⟨ha, hy⟩ => ⟨ih ha, hy⟩)

namespace Books
variable {t : List Happening} {c : Client} {x : Happening}

theorem nodup_calls (h : Books t c) : (calls t).Nodup := h.numbers ▸ List.nodup_range'

/-- A response answers the call that awaits it. -/
theorem runs (h : Books t c) (hx : c.Turn x) {id : Nat} {data : Value}
    (hi : x.incident = .took (.message (.call id data))) {command : String}
    (ha : Awaits t id command) : x.answers = [(command, data)] := by
  cases hx with
  | calls hp he => cases hi
  | takes hp =>
    cases hi
    have hl := lookup_of_mem h.nodup ((h.awaits id command).2 ha)
    show answers (c.reaction _) = _
    rw [Client.answers_message]
    dsimp only
    rw [hl]
    rfl
  | ends hx hp hpending he =>
    rcases hx with hx | ⟨o, hx, ho⟩
    · cases hx.symm.trans hi
    · cases hx.symm.trans hi
      cases ho
  | keeps hx hp hpending hnext he => cases hx.symm.trans hi

/-- Nothing else answers a call. -/
theorem only (h : Books t c) (hx : c.Turn x) {a : String × Value} (ha : a ∈ x.answers) :
    ∃ id, x.incident = .took (.message (.call id a.2)) ∧ Awaits t id a.1 := by
  cases hx with
  | calls hp he => exact absurd (he ▸ ha : a ∈ []) List.not_mem_nil
  | @takes m link hp =>
    have hm : a ∈ answers (c.reaction m) := ha
    rw [Client.answers_message] at hm
    cases m with
    | log data => exact absurd hm List.not_mem_nil
    | event name data => exact absurd hm List.not_mem_nil
    | call id data =>
      obtain ⟨command, hl, rfl⟩ := List.mem_map.1 hm
      exact ⟨id, rfl, (h.awaits id command).1 (mem_of_lookup (Option.mem_toList.1 hl))⟩
  | ends hx hp hpending he => exact absurd (he ▸ ha) List.not_mem_nil
  | keeps hx hp hpending hnext he => exact absurd (he ▸ ha) List.not_mem_nil

/-- A response that no call awaits changes nothing. -/
theorem ignored (h : Books t c) (hx : c.Turn x) {id : Nat} {data : Value}
    (hi : x.incident = .took (.message (.call id data))) (hnone : ∀ command, ¬ Awaits t id command) :
    x.answers = [] ∧ x.client.pending = c.pending := by
  refine ⟨List.eq_nil_iff_forall_not_mem.2 fun a ha => ?_, ?_⟩
  · obtain ⟨n, hn, hawaits⟩ := h.only hx ha
    cases hi.symm.trans hn
    exact hnone a.1 hawaits
  · cases hx with
    | calls hp he => cases hi
    | takes hp =>
      cases hi
      refine filter_of_lookup_eq_none (Option.eq_none_iff_forall_ne_some.2 fun command hl => ?_)
      exact hnone command ((h.awaits id command).1 (mem_of_lookup hl))
    | ends hx hp hpending he =>
      rcases hx with hx | ⟨o, hx, ho⟩
      · cases hx.symm.trans hi
      · cases hx.symm.trans hi
        cases ho
    | keeps hx hp hpending hnext he => exact hpending

/-- A call that has been answered is not answered again. -/
theorem once {before mid : List Happening} {b d : Client} {y : Happening} (hb : Books before b)
    (hx : b.Turn x) (hd : Books (before ++ x :: mid) d) (hy : d.Turn y) {id : Nat}
    (hnx : x.incident.number? = some id) (hax : x.answers ≠ [])
    (hny : y.incident.number? = some id) : y.answers = [] := by
  refine List.eq_nil_iff_forall_not_mem.2 fun a ha => ?_
  obtain ⟨a', ha'⟩ := List.exists_mem_of_ne_nil _ hax
  obtain ⟨n, hn, hawaits⟩ := hb.only hx ha'
  obtain ⟨k, hk, hawaits'⟩ := hd.only hy ha
  rw [hn] at hnx
  cases hnx
  rw [hk] at hny
  cases hny
  -- the call would have been made twice
  have hnodup := hd.nodup_calls
  rw [calls, List.filterMap_append] at hnodup
  have hlate : id ∈ (x :: mid).filterMap (·.incident.called?) := by
    have := mem_calls_of_awaits (hawaits'.behind (by rw [hn]; rfl))
    obtain ⟨z, hz, hid⟩ := List.mem_filterMap.1 this
    exact List.mem_filterMap.2 ⟨z, List.mem_cons_of_mem _ hz, hid⟩
  exact (List.nodup_append.1 hnodup).2.2 id (mem_calls_of_awaits hawaits) id hlate rfl

/-- Whatever happens is honest. -/
theorem honest {before behind : List Happening} (h : Books before c)
    (ht : c.Turns (x :: behind)) : x.Honest before behind c := by
  obtain ⟨hx, hbehind⟩ := ht
  refine ⟨fun id command data hi => h.runs hx hi, fun command data => h.only hx, ?_,
    fun id data => h.ignored hx, fun hp => ⟨(h.turn hx).gone hp, hbehind.gone hp⟩⟩
  intro id hnx hax y hy hny
  obtain ⟨mid, rest, rfl⟩ := List.append_of_mem hy
  obtain ⟨hmid, hrest⟩ := (Client.turns_append ..).1 hbehind
  have hd := (h.turn hx).turns hmid
  rw [List.append_assoc] at hd
  exact h.once hx hd hrest.1 hnx hax hny

end Books

/-! ### The story of a life -/

namespace Client
variable {c : Client} {d : Deed} {r : Attempt (Option Nat)}

/-- The happenings tell all of what is done. -/
structure Told (c : Client) (r : Attempt (Option Nat)) (t : List Happening) : Prop where
  turns : c.Turns t
  behind : c.behind t = r.client
  effects : t.flatMap Happening.effects = r.effects
  calls : Worker.calls t = (numberOf r.result).toList

theorem answers_eq_nil {effects : List Effect}
    (h : ∀ id command data, @Effect.answered id command data ∉ effects) :
    answers effects = [] := by
  refine List.filterMap_eq_nil_iff.2 fun e he => ?_
  cases e with
  | answered command data => exact absurd he (h _ command data)
  | _ => rfl

theorem Told.other (ht : c.Turn ⟨.other, r.client, r.effects⟩) (hn : numberOf r.result = none) :
    c.Told r [d.happening r] := by
  have hother : d.happening r = ⟨.other, r.client, r.effects⟩ := by
    unfold Deed.happening
    split
    · next hsome =>
      rw [hn] at hsome
      cases hsome
    · rfl
  rw [hother]
  refine ⟨⟨ht, trivial⟩, rfl, List.append_nil _, ?_⟩
  rw [hn]
  rfl

theorem isOver_of_isLinked {p : Phase} (h : p.isLinked = true) : p.isOver = false := by
  cases p <;> first | rfl | cases h

/-- A deed that pumps nothing is one happening. -/
theorem Passage.told (hr : Passage c d r) (hpump : d ≠ .pump) (hwaiting : d ≠ .pumpWaiting) :
    c.Told r [d.happening r] := by
  have hpumps : ¬ (d = .pump ∨ d = .pumpWaiting) := not_or.2 ⟨hpump, hwaiting⟩
  have hnone : answers ([] : List Effect) = [] := rfl
  cases hr with
  | refused hd he => exact .other (.keeps rfl rfl rfl rfl hnone) rfl
  | adopts hd hp hinbox => exact .other (.keeps rfl (by rw [hp]; rfl) rfl rfl rfl) rfl
  | fails next hd hp he heffects =>
    exact .other (.ends (.inl rfl) rfl rfl (answers_eq_nil fun _ _ _ hm => heffects _ hm)) rfl
  | pumps hd hlive hms => exact absurd hd hpumps
  | breaks hd hp hms => exact absurd hd hpumps
  | attaches hlive =>
    have hp := isOver_of_isLinked hlive.isLinked
    refine .other (.keeps rfl hp.symm rfl rfl (answers_eq_nil fun _ _ _ hm => ?_)) rfl
    rcases List.mem_append.1 hm with hm | hm
    · exact c.parting_releases _ hm
    · simp at hm
  | leaves hlinked =>
    have hp := isOver_of_isLinked hlinked.isLinked
    exact .other (.keeps rfl hp.symm rfl rfl
      (answers_eq_nil fun _ _ _ hm => c.parting_releases _ hm)) rfl
  | calls hlive =>
    exact ⟨⟨.calls (isOver_of_isLinked hlive.isLinked) rfl, trivial⟩, rfl, rfl, rfl⟩
  | terminates hp =>
    refine .other (.ends (.inl rfl) rfl rfl (answers_eq_nil fun _ _ _ hm => ?_)) rfl
    rcases List.mem_append.1 hm with hm | hm
    · obtain ⟨s, -, hreact⟩ := List.mem_map.1 hm
      rcases s.react_cases (.object []) with hs | ⟨remarks, hs⟩ | ⟨warning, hs⟩ <;>
        cases hs.symm.trans hreact
    · exact c.parting_releases _ hm
  | keeps link hend hleft hlink hinbox heffects =>
    obtain ⟨subscribers, nextSubscriber, hc⟩ := c.enrol_eq d
    rw [hc]
    exact .other (.keeps rfl rfl rfl rfl (answers_eq_nil fun _ _ _ hm => heffects _ hm)) rfl

end Client

namespace Host
variable {h : Host}

end Host

end CodeEditing.Worker
