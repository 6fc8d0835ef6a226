import CodeEditing.Proofs.Worker.Steps

/-! The answers to calls of `lint`.

A call has a number of its own, and the message, the answer and the call that waits all carry it.
`Session.Course` is where a call can be: among the messages that wait for the worker, among those
that wait to be pumped, or settled. What is ahead of the message leads the worker's copy to the
lines that the document had when the call was made, so these decide the answer, whatever comes
behind (`Session.call_answered`). Of the answers that are pumped the first under the number of a call
goes to whoever made it (`runsOf_reactions`). -/
namespace CodeEditing.Worker

open Document (Line TextDocument endOf)
open Json (Value)

/-! ### Numbers -/

/-- The number under which the linter answers a message, if it does. -/
def HostMessage.asks? : HostMessage → Option Nat
  | command name args =>
    if name = "setValue" then Follower.setValueCall? args
    else if name = "lint" then args.getLast?.bind Value.nat?
    else none
  | _ => none

/-- What a message answers to the call of a number. -/
def WorkerMessage.answerTo? (id : Nat) : WorkerMessage → Option Value
  | call k data => if k = id then some data else none
  | _ => none

/-- The answers to the call of a number. -/
def answersTo (id : Nat) (ms : List WorkerMessage) : List Value := ms.filterMap (·.answerTo? id)

/-- The answer that whoever made the call of a number gets, with the command. -/
def Effect.answerTo? (id : Nat) : Effect → Option (String × Value)
  | @answered number command data => if number = id then some (command, data) else none
  | _ => none

/-- What whoever made the call of a number gets to hear, each time with the command. -/
def runsOf (id : Nat) (effects : List Effect) : List (String × Value) :=
  effects.filterMap (·.answerTo? id)

theorem asks?_call (args : List Value) (id : Nat) :
    (HostMessage.call "lint" args id).asks? = some id := by
  simp only [HostMessage.call, HostMessage.asks?, List.getLast?_concat]
  rfl

theorem answersTo_append (id : Nat) (ms ks : List WorkerMessage) :
    answersTo id (ms ++ ks) = answersTo id ms ++ answersTo id ks :=
  List.filterMap_append

theorem runsOf_append (id : Nat) (es fs : List Effect) :
    runsOf id (es ++ fs) = runsOf id es ++ runsOf id fs :=
  List.filterMap_append

/-- Effects that answer no call answer none of any number. -/
theorem runsOf_eq_nil {effects : List Effect} (h : ∀ e ∈ effects, e.answer? = none) (id : Nat) :
    runsOf id effects = [] := by
  refine List.filterMap_eq_nil_iff.2 fun e he => ?_
  cases e with
  | answered command data => exact nomatch h _ he
  | _ => rfl

theorem runsOf_silent {effects : List Effect} (h : ∀ e ∈ effects, e.Silent) {id : Nat} :
    runsOf id effects = [] :=
  runsOf_eq_nil (fun e he => (h e he).answer) id

theorem answerTo?_eq_none {id : Nat} {m : WorkerMessage} (h : m.number? ≠ some id) :
    m.answerTo? id = none := by
  cases m with
  | log data => rfl
  | event name data => rfl
  | call k data => exact if_neg fun hk => h (congrArg some hk)

theorem answersTo_eq_nil_iff {id : Nat} {ms : List WorkerMessage} :
    answersTo id ms = [] ↔ ∀ m ∈ ms, m.number? ≠ some id := by
  refine List.filterMap_eq_nil_iff.trans
    ⟨fun h m hm hk => ?_, fun h m hm => answerTo?_eq_none (h m hm)⟩
  cases m with
  | log data => cases hk
  | event name data => cases hk
  | call k data =>
    have := h _ hm
    rw [WorkerMessage.answerTo?, if_pos (Option.some.inj hk)] at this
    cases this

theorem mem_answersTo {id : Nat} {ms : List WorkerMessage} {v : Value} :
    v ∈ answersTo id ms ↔ .call id v ∈ ms := by
  refine List.mem_filterMap.trans ⟨fun ⟨m, hm, hv⟩ => ?_, fun h => ⟨_, h, if_pos rfl⟩⟩
  cases m with
  | log data => cases hv
  | event name data => cases hv
  | call k data =>
    rw [WorkerMessage.answerTo?] at hv
    split at hv
    · next hk => exact hk ▸ Option.some.inj hv ▸ hm
    · cases hv

/-- A response is heard by whoever made the call of its number, if it waits. -/
theorem runsOf_reaction (id : Nat) (c : Client) (m : WorkerMessage) : runsOf id (c.reaction m) =
    match c.pending.lookup id with
    | some command => (m.answerTo? id).toList.map (command, ·)
    | none => [] := by
  cases m with
  | log data => cases c.pending.lookup id <;> rfl
  | event name data =>
    have hnone : runsOf id (c.reaction (.event name data)) = [] :=
      runsOf_eq_nil (fun e he => Client.answer?_of_mem_notify he) id
    rw [hnone]
    cases c.pending.lookup id <;> rfl
  | call k data =>
    rw [Client.reaction_call, WorkerMessage.answerTo?]
    by_cases hk : k = id
    · subst hk
      cases c.pending.lookup k <;> simp [runsOf, Effect.answerTo?]
    · cases c.pending.lookup k <;> cases c.pending.lookup id <;> simp [runsOf, Effect.answerTo?, hk]

/-- Of the answers that come to a call that waits the first is heard. -/
theorem runsOf_reactions (id : Nat) (c : Client) (ms : List WorkerMessage) :
    runsOf id (c.reactions ms) =
      match c.pending.lookup id with
      | some command => ((answersTo id ms).take 1).map (command, ·)
      | none => [] := by
  induction ms generalizing c with
  | nil => cases c.pending.lookup id <;> rfl
  | cons m ms ih =>
    rw [Client.reactions, runsOf_append, runsOf_reaction, ih, Client.lookup_settled]
    cases hl : c.pending.lookup id with
    | none => simp
    | some command =>
      by_cases hm : m.number? = some id
      · obtain ⟨data, rfl⟩ : ∃ data, m = .call id data := by
          cases m with
          | call k data => exact ⟨data, by rw [Option.some.inj hm]⟩
          | _ => cases hm
        simp [answersTo, WorkerMessage.answerTo?, WorkerMessage.number?]
      · have hskip : answersTo id (m :: ms) = answersTo id ms :=
          List.filterMap_cons_none (answerTo?_eq_none hm)
        rw [if_neg hm, answerTo?_eq_none hm, hskip]
        rfl

theorem lookup_foldl_settled {id : Nat} {ms : List WorkerMessage}
    (h : ∀ m ∈ ms, m.number? ≠ some id) (pending : List (Nat × String)) :
    (ms.foldl Client.settled pending).lookup id = pending.lookup id := by
  induction ms generalizing pending with
  | nil => rfl
  | cons m ms ih =>
    rw [List.foldl_cons, ih fun m hm => h m (List.mem_cons_of_mem _ hm), Client.lookup_settled,
      if_neg (h m List.mem_cons_self)]

/-! ### What the linter answers -/

/-- Handling the first message leads on to the others. -/
theorem Leads.handle {a : Analysis σ} {w : Follower σ} {m : HostMessage} {ms : List HostMessage}
    {ts : List (List Line)} (h : Leads a w.doc.lines (m :: ms) ts) :
    ∃ us, Leads a (w.handle a m).follower.doc.lines ms us ∧
      endOf (w.handle a m).follower.doc.lines us = endOf w.doc.lines ts := by
  generalize hl : w.doc.lines = lines at h
  cases h with
  | quiet hm h =>
    rw [w.handle_quiet a hm, hl]
    exact ⟨ts, h, rfl⟩
  | told hm hw h =>
    rw [hw w hl]
    exact ⟨_, h, List.getLastD_cons.symm⟩

theorem lintAnswer_congr {d e : TextDocument} (h : d.lines = e.lines) :
    lintAnswer d = lintAnswer e := by
  unfold lintAnswer
  rw [h]

/-- Handling a message, the linter answers the call that the message carries, and no other. -/
theorem number?_of_mem_sent {w : Follower Unit} {m : HostMessage} {k : WorkerMessage} {n : Nat}
    (hk : k ∈ (w.handle linter m).sent) (hn : k.number? = some n) : m.asks? = some n := by
  cases m with
  | init flag tlns module classname =>
    change k ∈ (linter.init w.state module classname tlns).2 at hk
    simp only [linter] at hk
    split at hk
    · exact absurd hk List.not_mem_nil
    · obtain rfl := List.mem_singleton.1 hk
      cases hn
  | command name args =>
    change k ∈ (if name = "setValue" then w.setValue args
      else w.command linter name args).sent at hk
    split at hk
    · next hs =>
      obtain ⟨id, hid, rfl⟩ := List.mem_map.1 hk
      rw [HostMessage.asks?, if_pos hs, Option.mem_toList.1 hid]
      exact hn
    · next hs =>
      rw [sent_command] at hk
      rw [HostMessage.asks?, if_neg hs]
      split at hk
      · next hl =>
        obtain ⟨id, hid, rfl⟩ := List.mem_map.1 hk
        rw [if_pos hl, Option.mem_toList.1 hid]
        exact hn
      · obtain rfl := List.mem_singleton.1 hk
        cases hn
  | event name data =>
    change k ∈ (if name = "change" then w.change data else .send w []).sent at hk
    split at hk
    · obtain ⟨text, rfl⟩ := exists_note_of_mem_sent hk
      cases hn
    · exact absurd hk List.not_mem_nil

/-- Looking at its copy, the linter answers no call. -/
theorem number?_of_mem_finish {w : Follower Unit} {k : WorkerMessage}
    (hk : k ∈ (w.finish linter).sent) : k.number? = none := by
  unfold Follower.finish at hk
  split at hk
  · obtain rfl : k = verdict w.doc := List.mem_singleton.1 hk
    unfold verdict
    split <;> rfl
  · exact absurd hk List.not_mem_nil

theorem sent_call (w : Follower Unit) (args : List Value) (id : Nat) :
    (w.handle linter (.call "lint" args id)).sent = [.call id (lintAnswer w.doc)] := by
  show (w.command linter "lint" (args ++ [.ofNat id])).sent = _
  rw [sent_command, if_pos rfl, List.getLast?_concat]
  rfl

/-! ### Numbers that are used up -/

/-- Nobody but the client numbers a command that is to be answered. -/
def Act.Unforged : Act → Prop
  | send command args => (HostMessage.command command args).asks? = none
  | _ => True

instance : (act : Act) → Decidable act.Unforged
  | .send command args => decEq (HostMessage.command command args).asks? none
  | .attach .. | .detach .. | .edit .. | .call .. | .emit .. | .subscribe ..
  | .unsubscribe .. | .bindRemarks | .pump | .pumpWaiting | .receive ..
  | .handle | .finish => isTrue trivial

/-- The numbers that a host sends with calls are new. -/
theorem Act.Posts.asks {c : Client} {act : Act} {ms : List HostMessage} (h : act.Posts c ms)
    (hallowed : act.Allowed) (hact : act.Unforged) {m : HostMessage} (hm : m ∈ ms) {n : Nat}
    (hn : m.asks? = some n) :
    n = c.nextCall ∧ (act.book c).nextCall = c.nextCall + 1 := by
  cases act with
  | attach name =>
    obtain rfl | ⟨text, rfl⟩ := h
    · exact absurd hm List.not_mem_nil
    · exact absurd hn (List.mem_singleton.1 hm ▸ nofun)
  | edit name r =>
    obtain ⟨deltas, rfl, -⟩ := h
    obtain ⟨delta, -, rfl⟩ := List.mem_map.1 hm
    cases hn
  | send command args =>
    obtain rfl := h
    exact absurd ((List.mem_singleton.1 hm ▸ hn).symm.trans hact) nofun
  | call command args =>
    obtain rfl := h
    obtain rfl := List.mem_singleton.1 hm
    refine ⟨?_, rfl⟩
    simp only [HostMessage.call, HostMessage.asks?, if_neg (show command ≠ _ from hallowed),
      List.getLast?_concat] at hn
    split at hn
    · exact (Option.some.inj hn).symm
    · cases hn
  | emit event data =>
    cases data with
    | ok data =>
      obtain rfl := h
      exact absurd hn (List.mem_singleton.1 hm ▸ nofun)
    | error e =>
      obtain rfl := h
      exact absurd hm List.not_mem_nil
  | _ =>
    obtain rfl := h
    exact absurd hm List.not_mem_nil

theorem Act.nextCall_le_book (c : Client) (act : Act) : c.nextCall ≤ (act.book c).nextCall := by
  cases act with
  | call command args => exact Nat.le_succ _
  | _ => exact Nat.le_refl _

theorem Move.nextCall_le {s s' : Session σ} {a : Analysis σ} {act : Act}
    {sent : List WorkerMessage} {effects : List Effect} (h : Move a s act s' sent effects) :
    s.exchange.host.client.nextCall ≤ s'.exchange.host.client.nextCall := by
  cases h with
  | host hm =>
    rw [hm.nextCall]
    exact act.nextCall_le_book _
  | pump _ hc => exact hc ▸ Nat.le_refl _
  | ending hc => exact hc ▸ Nat.le_refl _
  | _ => exact Nat.le_refl _

theorem Act.lookup_book {c : Client} {id : Nat} {command : String}
    (h : c.pending.lookup id = some command) (act : Act) :
    (act.book c).pending.lookup id = some command := by
  cases act with
  | call other args =>
    show (c.pending ++ [(c.nextCall, other)]).lookup id = some command
    rw [List.lookup_append, h, Option.some_or]
  | _ => exact h

/-- Only a call that has just been made begins to wait, under the next number. -/
theorem Act.mem_pending_book {c : Client} {act : Act} {p : Nat × String}
    (h : p ∈ (act.book c).pending) :
    p ∈ c.pending ∨ p.1 = c.nextCall ∧ (act.book c).nextCall = c.nextCall + 1 := by
  cases act with
  | call command args =>
    exact (List.mem_append.1 h).imp_right fun hp =>
      ⟨congrArg Prod.fst (List.mem_singleton.1 hp), rfl⟩
  | _ => exact .inl h

namespace Session
variable {s s' : Session Unit} {act : Act}

/-- All numbers that have been used are below that of the next call. -/
structure Numbered (s : Session Unit) (sent : List WorkerMessage) (effects : List Effect) :
    Prop where
  waiting : ∀ m ∈ s.exchange.waiting, ∀ n, m.asks? = some n → n < s.exchange.host.client.nextCall
  coming : ∀ m ∈ s.coming, ∀ n, m.number? = some n → n < s.exchange.host.client.nextCall
  pending : ∀ p ∈ s.exchange.host.client.pending, p.1 < s.exchange.host.client.nextCall
  sent : ∀ m ∈ sent, ∀ n, m.number? = some n → n < s.exchange.host.client.nextCall
  effects : ∀ n, s.exchange.host.client.nextCall ≤ n → runsOf n effects = []

namespace Numbered
variable {sent ms : List WorkerMessage} {effects es : List Effect}

theorem start (config : Config) (docs : List (String × List Char)) :
    Numbered (start linter config docs) [] [] where
  waiting _ hm _ hn := absurd hn (List.mem_singleton.1 hm ▸ nofun)
  coming _ hm := absurd hm List.not_mem_nil
  pending _ hp := absurd hp List.not_mem_nil
  sent _ hm := absurd hm List.not_mem_nil
  effects _ _ := rfl

theorem host (h : Numbered s sent effects) {posted : List HostMessage}
    (hm : HostMove s act s' posted) (silent : ∀ e ∈ es, e.Silent) (hallowed : act.Allowed)
    (hact : act.Unforged) : Numbered s' sent (effects ++ es) := by
  have hle : s.exchange.host.client.nextCall ≤ s'.exchange.host.client.nextCall :=
    hm.nextCall ▸ act.nextCall_le_book _
  refine ⟨fun m hmem n hn => ?_, fun m hmem n hn => ?_, fun p hp => ?_, fun m hmem n hn => ?_,
    fun n hn => ?_⟩
  · rw [hm.waiting] at hmem
    rcases List.mem_append.1 hmem with hmem | hmem
    · exact Nat.lt_of_lt_of_le (h.waiting m hmem n hn) hle
    · obtain ⟨rfl, hnext⟩ := hm.posts.asks hallowed hact hmem hn
      rw [hm.nextCall, hnext]
      exact Nat.lt_succ_self _
  · rw [hm.coming] at hmem
    exact Nat.lt_of_lt_of_le (h.coming m hmem n hn) hle
  · rw [hm.pending] at hp
    rcases Act.mem_pending_book hp with hp | ⟨hnew, hnext⟩
    · exact Nat.lt_of_lt_of_le (h.pending p hp) hle
    · rw [hm.nextCall, hnext, hnew]
      exact Nat.lt_succ_self _
  · exact Nat.lt_of_lt_of_le (h.sent m hmem n hn) hle
  · rw [runsOf_append, runsOf_silent silent, List.append_nil]
    exact h.effects n (Nat.le_trans hle hn)

/-- The worker answers only what it was asked. -/
theorem worked (h : Numbered s sent effects) {t : Turn Unit} {left : List HostMessage}
    {heard : Nat} (hleft : ∀ m ∈ left, m ∈ s.exchange.waiting)
    (ht : ∀ k ∈ t.sent, ∀ n, k.number? = some n → ∃ m ∈ s.exchange.waiting, m.asks? = some n) :
    Numbered (s.worked t left heard) (sent ++ t.sent) effects := by
  have hsent : ∀ k ∈ t.sent, ∀ n, k.number? = some n → n < s.exchange.host.client.nextCall := by
    intro k hk n hn
    obtain ⟨m, hm, hasks⟩ := ht k hk n hn
    exact h.waiting m hm n hasks
  refine ⟨fun m hm => h.waiting m (hleft m hm), fun k hk => ?_, h.pending, fun k hk => ?_, h.effects⟩
  · rw [coming_worked] at hk
    exact (List.mem_append.1 hk).elim (h.coming k) (hsent k)
  · exact (List.mem_append.1 hk).elim (h.sent k) (hsent k)

/-- Nobody hears of a call that has not been made. -/
theorem pump (h : Numbered s sent effects)
    (hms : s.exchange.host.client.inbox = ms.map .message) {remarks : List Document.Remark} :
    Numbered {s with
        exchange.host.client := s.exchange.host.client.pumped ms, exchange.remarks := remarks}
      sent (effects ++ s.exchange.host.client.reactions ms) := by
  refine ⟨h.waiting, fun m hm => absurd hm List.not_mem_nil, fun p hp => ?_, h.sent, fun n hn => ?_⟩
  · exact h.pending p ((Client.foldl_settled_sublist _ ms).subset hp)
  · have hcoming : answersTo n ms = [] := answersTo_eq_nil_iff.2 fun m hm hm' =>
      Nat.not_lt.2 hn (h.coming m ((coming_eq hms).symm ▸ hm) n hm')
    rw [runsOf_append, h.effects n hn, runsOf_reactions, hcoming]
    cases s.exchange.host.client.pending.lookup n <;> rfl

theorem move (h : Numbered s sent effects) (hmove : Move linter s act s' ms es)
    (hallowed : act.Allowed) (hact : act.Unforged) : Numbered s' (sent ++ ms) (effects ++ es) := by
  cases hmove with
  | host hm silent =>
    rw [List.append_nil]
    exact h.host hm silent hallowed hact
  | pump _ hc hms =>
    subst hc
    rw [List.append_nil]
    exact h.pump hms
  | ending hc ho =>
    subst hc
    rw [List.append_nil, List.append_nil]
    exact ⟨h.waiting, coming_ending s ho ▸ h.coming, h.pending, h.sent, h.effects⟩
  | idle =>
    rw [List.append_nil, List.append_nil]
    exact h
  | handle hm ht =>
    subst ht
    rw [List.append_nil]
    refine h.worked (fun k hk => hm ▸ List.mem_cons_of_mem _ hk) fun k hk n hn => ?_
    exact ⟨_, hm ▸ List.mem_cons_self, number?_of_mem_sent hk hn⟩
  | finish ht =>
    subst ht
    rw [List.append_nil]
    refine h.worked (fun k hk => hk) fun k hk n hn => ?_
    exact absurd ((number?_of_mem_finish hk).symm.trans hn) nofun

end Numbered

/-- Where the call of a number is, with the answers that the worker has sent and what whoever made the
call has got to hear: it waits for the worker, behind what leads the copy to the lines of the document;
or its answer waits to be pumped; or it is settled. -/
inductive Course (args : List Value) (id : Nat) (d : TextDocument) (s : Session Unit) :
    List Value → List (String × Value) → Prop
  | asked {front back : List HostMessage} {ts : List (List Line)}
    (hw : s.exchange.waiting = front ++ .call "lint" args id :: back)
    (hothers : ∀ m ∈ front ++ back, m.asks? ≠ some id)
    (hleads : Leads linter s.exchange.worker.doc.lines front ts)
    (hend : endOf s.exchange.worker.doc.lines ts = d.lines)
    (hcoming : answersTo id s.coming = [])
    (hpending : s.exchange.host.client.pending.lookup id = some "lint") : Course args id d s [] []
  | answered (hw : ∀ m ∈ s.exchange.waiting, m.asks? ≠ some id)
    (hcoming : answersTo id s.coming = [lintAnswer d])
    (hpending : s.exchange.host.client.pending.lookup id = some "lint") :
    Course args id d s [lintAnswer d] []
  | settled (hw : ∀ m ∈ s.exchange.waiting, m.asks? ≠ some id)
    (hcoming : answersTo id s.coming = []) :
    Course args id d s [lintAnswer d] [("lint", lintAnswer d)]

namespace Course
variable {args : List Value} {id : Nat} {d : TextDocument} {answers : List Value}
  {runs : List (String × Value)}

/-- What is not about the call leaves it where it is. -/
theorem keep (h : Course args id d s answers runs) (posted : List HostMessage)
    (hwaiting : s'.exchange.waiting = s.exchange.waiting ++ posted)
    (hothers : ∀ m ∈ posted, m.asks? ≠ some id)
    (hdoc : s'.exchange.worker.doc.lines = s.exchange.worker.doc.lines)
    (hcoming : answersTo id s'.coming = answersTo id s.coming)
    (hpending : s.exchange.host.client.pending.lookup id = some "lint" →
      s'.exchange.host.client.pending.lookup id = some "lint") :
    Course args id d s' answers runs := by
  cases h with
  | @asked front back ts hw hold hleads hend hcome hpend =>
    have hw' : s'.exchange.waiting = front ++ .call "lint" args id :: (back ++ posted) := by
      rw [hwaiting, hw, List.append_assoc]
      rfl
    refine .asked hw' (fun m hmem => ?_) (hdoc.symm ▸ hleads) (hdoc.symm ▸ hend)
      (hcoming.trans hcome) (hpending hpend)
    rw [← List.append_assoc] at hmem
    exact (List.mem_append.1 hmem).elim (hold m) (hothers m)
  | answered hw hcome hpend =>
    refine .answered (fun m hmem => ?_) (hcoming.trans hcome) (hpending hpend)
    exact (List.mem_append.1 (hwaiting ▸ hmem)).elim (hw m) (hothers m)
  | settled hw hcome =>
    refine .settled (fun m hmem => ?_) (hcoming.trans hcome)
    exact (List.mem_append.1 (hwaiting ▸ hmem)).elim (hw m) (hothers m)

theorem pump (h : Course args id d s answers runs) {ms : List WorkerMessage}
    (hms : s.exchange.host.client.inbox = ms.map .message) {remarks : List Document.Remark} :
    Course args id d {s with
        exchange.host.client := s.exchange.host.client.pumped ms, exchange.remarks := remarks}
      answers (runs ++ runsOf id (s.exchange.host.client.reactions ms)) := by
  rw [runsOf_reactions]
  cases h with
  | asked hw hothers hleads hend hcoming hpending =>
    rw [coming_eq hms] at hcoming
    rw [hpending, hcoming]
    refine .asked hw hothers hleads hend rfl ?_
    show (ms.foldl Client.settled s.exchange.host.client.pending).lookup id = some "lint"
    rw [lookup_foldl_settled (answersTo_eq_nil_iff.1 hcoming)]
    exact hpending
  | answered hw hcoming hpending =>
    rw [coming_eq hms] at hcoming
    rw [hpending, hcoming]
    exact .settled hw rfl
  | settled hw hcoming =>
    rw [coming_eq hms] at hcoming
    rw [hcoming]
    cases s.exchange.host.client.pending.lookup id <;> exact .settled hw rfl

theorem handle (h : Course args id d s answers runs) {m : HostMessage}
    {left : List HostMessage} (hm : s.exchange.waiting = m :: left) {heard : Nat} :
    Course args id d (s.worked (s.exchange.worker.handle linter m) left heard)
      (answers ++ answersTo id (s.exchange.worker.handle linter m).sent) runs := by
  have hcoming' : answersTo id (s.worked (s.exchange.worker.handle linter m) left heard).coming =
      answersTo id s.coming ++ answersTo id (s.exchange.worker.handle linter m).sent := by
    rw [coming_worked, answersTo_append]
  have hquiet : m.asks? ≠ some id →
      answersTo id (s.exchange.worker.handle linter m).sent = [] := fun hasks =>
    answersTo_eq_nil_iff.2 fun k hk hn => hasks (number?_of_mem_sent hk hn)
  cases h with
  | @asked front back ts hw hothers hleads hend hcoming hpending =>
    rw [hm] at hw
    cases front with
    | nil =>
      obtain ⟨rfl, rfl⟩ := List.cons.inj hw
      obtain rfl : ts = [] := List.eq_nil_of_length_eq_zero hleads.length
      have hanswer : answersTo id (s.exchange.worker.handle linter (.call "lint" args id)).sent =
          [lintAnswer d] := by
        rw [sent_call, lintAnswer_congr hend]
        exact List.filterMap_cons_some (if_pos rfl)
      rw [hanswer]
      rw [hanswer, hcoming] at hcoming'
      exact .answered hothers hcoming' hpending
    | cons k front =>
      obtain ⟨rfl, rfl⟩ := List.cons.inj hw
      have hm := hothers m List.mem_cons_self
      obtain ⟨us, hleads, hus⟩ := hleads.handle
      rw [hquiet hm] at hcoming' ⊢
      rw [hcoming] at hcoming'
      exact .asked rfl (fun k hk => hothers k (List.mem_cons_of_mem _ hk)) hleads (hus.trans hend)
        hcoming' hpending
  | answered hw hcoming hpending =>
    rw [hm] at hw
    rw [hquiet (hw m List.mem_cons_self)] at hcoming' ⊢
    rw [hcoming] at hcoming'
    exact .answered (fun k hk => hw k (List.mem_cons_of_mem _ hk)) hcoming' hpending
  | settled hw hcoming =>
    rw [hm] at hw
    rw [hquiet (hw m List.mem_cons_self)] at hcoming' ⊢
    rw [hcoming] at hcoming'
    exact .settled (fun k hk => hw k (List.mem_cons_of_mem _ hk)) hcoming'

/-- Every move takes the call on its course. -/
theorem move (h : Course args id d s answers runs) {ms : List WorkerMessage} {es : List Effect}
    (hmove : Move linter s act s' ms es) (hallowed : act.Allowed) (hact : act.Unforged)
    (hid : id < s.exchange.host.client.nextCall) :
    Course args id d s' (answers ++ answersTo id ms) (runs ++ runsOf id es) := by
  have hnone : ∀ s, Course args id d s answers runs →
      Course args id d s (answers ++ answersTo id []) (runs ++ runsOf id []) := by
    intro s h
    show Course args id d s (answers ++ []) (runs ++ [])
    rwa [List.append_nil, List.append_nil]
  cases hmove with
  | host hm silent =>
    rw [runsOf_silent silent]
    refine hnone _ (h.keep _ hm.waiting (fun m hmem hn => ?_) (by rw [hm.worker])
      (by rw [hm.coming]) fun hpending => hm.pending ▸ Act.lookup_book hpending act)
    exact Nat.ne_of_lt hid (hm.posts.asks hallowed hact hmem hn).1
  | pump _ hc hms =>
    subst hc
    show Course args id d _ (answers ++ []) _
    rw [List.append_nil]
    exact h.pump hms
  | ending hc ho =>
    subst hc
    exact hnone _ (h.keep [] (List.append_nil _).symm (fun m hm => absurd hm List.not_mem_nil) rfl
      (by rw [coming_ending s ho]) fun hpending => hpending)
  | idle => exact hnone _ h
  | handle hm ht =>
    subst ht
    show Course args id d _ _ (runs ++ [])
    rw [List.append_nil]
    exact h.handle hm
  | finish ht =>
    subst ht
    have hquiet : answersTo id (s.exchange.worker.finish linter).sent = [] :=
      answersTo_eq_nil_iff.2 fun k hk hn => absurd ((number?_of_mem_finish hk).symm.trans hn) nofun
    rw [hquiet]
    refine hnone _ (h.keep [] (List.append_nil _).symm (fun m hm => absurd hm List.not_mem_nil) ?_
      ?_ fun hpending => hpending)
    · exact congrArg TextDocument.lines (s.exchange.worker.finish_doc linter)
    · rw [coming_worked, answersTo_append, hquiet, List.append_nil]

/-- A call that has just been made is behind what leads the copy to the lines of the document. -/
theorem begin {sent ms : List WorkerMessage} {effects es : List Effect}
    (h : Numbered s sent effects) (hfollows : Follows linter s)
    (hd : s.exchange.host.attached? = some d)
    (hmove : Move linter s (.call "lint" args) s' ms es) :
    Course args s.exchange.host.client.nextCall d s'
        (answersTo s.exchange.host.client.nextCall (sent ++ ms))
        (runsOf s.exchange.host.client.nextCall (effects ++ es)) ∧
      s.exchange.host.client.nextCall < s'.exchange.host.client.nextCall := by
  have hnew : ∀ {n}, n < s.exchange.host.client.nextCall → n ≠ s.exchange.host.client.nextCall :=
    fun hn => Nat.ne_of_lt hn
  cases hmove with
  | pump hact => exact absurd hact (by simp)
  | @host _ _ posted _ hm silent =>
    obtain rfl : posted = [.call "lint" args s.exchange.host.client.nextCall] := hm.posts
    have hanswers : answersTo s.exchange.host.client.nextCall (sent ++ []) = [] := by
      rw [List.append_nil, answersTo_eq_nil_iff]
      exact fun m hm hn => hnew (h.sent m hm _ hn) rfl
    have hruns : runsOf s.exchange.host.client.nextCall (effects ++ es) = [] := by
      rw [runsOf_append, h.effects _ (Nat.le_refl _), runsOf_silent silent]
      rfl
    have hfree : s.exchange.host.client.pending.lookup s.exchange.host.client.nextCall = none :=
      List.lookup_eq_none_iff.2 fun p hp => bne_iff_ne.2 (hnew (h.pending p hp)).symm
    rw [hanswers, hruns, hm.nextCall]
    refine ⟨.asked hm.waiting (fun m hmem hn => ?_) (hm.worker ▸ hfollows.leads) ?_ ?_ ?_,
      Nat.lt_succ_self _⟩
    · rw [List.append_nil] at hmem
      exact hnew (h.waiting m hmem _ hn) rfl
    · rw [hm.worker, hfollows.endOf_drop]
      exact hfollows.latest d hd
    · rw [hm.coming, answersTo_eq_nil_iff]
      exact fun m hmem hn => hnew (h.coming m hmem _ hn) rfl
    · rw [hm.pending]
      show (s.exchange.host.client.pending ++ _).lookup _ = some "lint"
      rw [List.lookup_append, hfree, List.lookup_cons_self]
      rfl

/-- The call is answered once it has been handled, and settled once the answer has been pumped. -/
theorem outcome (h : Course args id d s answers runs) :
    (.call "lint" args id ∈ s.exchange.waiting → answers = [] ∧ runs = []) ∧
      (.call "lint" args id ∉ s.exchange.waiting → answers = [lintAnswer d] ∧
        (.message (.call id (lintAnswer d)) ∈ s.exchange.host.client.inbox → runs = []) ∧
        (.message (.call id (lintAnswer d)) ∉ s.exchange.host.client.inbox →
          runs = [("lint", lintAnswer d)])) := by
  rw [← mem_coming, ← mem_answersTo]
  cases h with
  | asked hw =>
    refine ⟨fun _ => ⟨rfl, rfl⟩, fun hno => absurd ?_ hno⟩
    rw [hw]
    exact List.mem_append_right _ List.mem_cons_self
  | answered hw hcoming =>
    refine ⟨fun hasked => absurd (asks?_call args id) (hw _ hasked), fun _ => ⟨rfl, fun _ => rfl,
      fun hno => absurd ?_ hno⟩⟩
    rw [hcoming]
    exact List.mem_cons_self
  | settled hw hcoming =>
    refine ⟨fun hasked => absurd (asks?_call args id) (hw _ hasked), fun _ => ⟨rfl, fun hcome => ?_,
      fun _ => rfl⟩⟩
    rw [hcoming] at hcome
    exact absurd hcome List.not_mem_nil

end Course

/-- **A call of `lint` is answered with the verdict on the document as it was when the call was
made.** However the steps of a host and its worker are mixed, as long as the client does not fail:
the worker answers the call once, when it has handled it, and whoever made the call gets that answer
once, when it has been pumped. -/
theorem call_answered (config : Config) (docs : List (String × List Char))
    (before behind : List Act) (args : List Value) (s t : Session Unit)
    (hs : s = (start linter config docs).run linter before)
    (ht : t = s.run linter (.call "lint" args :: behind)) (hdocs : ∀ p ∈ docs, '\r' ∉ p.2)
    (hacts : ∀ act ∈ before ++ behind, act.Allowed ∧ act.Genuine ∧ act.Unforged)
    (hphase : t.exchange.host.client.phase ≠ .faulted) (d : TextDocument)
    (hattached : s.exchange.host.attached? = some d) :
    let id := s.exchange.host.client.nextCall
    let acts := before ++ .call "lint" args :: behind
    let answers := answersTo id ((start linter config docs).sentIn linter acts)
    let runs := runsOf id ((start linter config docs).effectsIn linter acts)
    (s.exchange.host.client.call "lint" args).result = .ok id ∧
      (.call "lint" args id ∈ t.exchange.waiting → answers = [] ∧ runs = []) ∧
      (.call "lint" args id ∉ t.exchange.waiting → answers = [lintAnswer d] ∧
        (.message (.call id (lintAnswer d)) ∈ t.exchange.host.client.inbox → runs = []) ∧
        (.message (.call id (lintAnswer d)) ∉ t.exchange.host.client.inbox →
          runs = [("lint", lintAnswer d)])) := by
  intro id acts answers runs
  have hsphase : s.exchange.host.client.phase ≠ .faulted :=
    fun hf => hphase (ht ▸ run_failed hf _)
  have hsteps : ∀ act ∈ before ++ behind, act.Allowed ∧ act.Genuine :=
    fun act hact => ⟨(hacts act hact).1, (hacts act hact).2.1⟩
  obtain ⟨hfollows, hnumbered⟩ : Follows linter s ∧
      Numbered s ((start linter config docs).sentIn linter before)
        ((start linter config docs).effectsIn linter before) := by
    subst hs
    refine (start_follows linter config hdocs).run_keeps (P := Numbered)
      (fun act hact => hsteps act (List.mem_append_left _ hact)) hsphase ?_ [] []
      (.start config docs)
    intro act hact s s' _ _ _ _ hmove h
    obtain ⟨hallowed, -, hunforged⟩ := hacts act (List.mem_append_left _ hact)
    exact h.move hmove hallowed hunforged
  rw [ht] at hphase
  obtain ⟨hnext, hmove⟩ :=
    hfollows.move_of_run (.call "lint" args) (by decide : "lint" ≠ "setValue") trivial hphase
  obtain ⟨hbegun, hid⟩ := Course.begin hnumbered hfollows hattached hmove
  have hcourse : Course args id d t answers runs := by
    have hanswers : answers = answersTo id ((start linter config docs).sentIn linter before ++
        s.sentBy linter (.call "lint" args) ++
          (s.step linter (.call "lint" args)).sentIn linter behind) := by
      rw [List.append_assoc, hs]
      exact congrArg (answersTo id) (sentIn_append ..)
    have hruns : runs = runsOf id ((start linter config docs).effectsIn linter before ++
        s.effectsBy (.call "lint" args) ++
          (s.step linter (.call "lint" args)).effectsIn linter behind) := by
      rw [List.append_assoc, hs]
      exact congrArg (runsOf id) (effectsIn_append ..)
    rw [hanswers, hruns, ht]
    refine (hnext.run_keeps (P := fun t sent runs => id < t.exchange.host.client.nextCall ∧
        Course args id d t (answersTo id sent) (runsOf id runs))
      (fun act hact => hsteps act (List.mem_append_right _ hact)) hphase ?_ _ _
      ⟨hid, hbegun⟩).2.2
    intro act hact t t' sent runs ms rs hmove ⟨hid, h⟩
    obtain ⟨hallowed, -, hunforged⟩ := hacts act (List.mem_append_right _ hact)
    rw [answersTo_append, runsOf_append]
    exact ⟨Nat.lt_of_lt_of_le hid hmove.nextCall_le, h.move hmove hallowed hunforged hid⟩
  refine ⟨?_, hcourse.outcome⟩
  rw [hfollows.tended.live.call]

/-- A bracket is opened. -/
def bracketing : List Act := [.attach "a", .edit "a" (.insert ⟨0, 0⟩ ['('])]

/-- The text is gone again before the worker hears of anything. -/
def clearing : List Act :=
  [.edit "a" (.setValue []), .handle, .handle, .handle, .handle, .handle, .pump]

theorem call_answered_cleared :
    let first := start linter .default [("a", [])]
    let acts := bracketing ++ .call "lint" [.bool true] :: clearing
    answersTo 1 (first.sentIn linter acts) = [lintAnswer ⟨[['(']], [0], 1⟩] ∧
      runsOf 1 (first.effectsIn linter acts) = [("lint", lintAnswer ⟨[['(']], [0], 1⟩)] ∧
      (first.run linter acts).exchange.worker.doc.lines = [[]] := by
  have hdocs : ∀ p ∈ [("a", [])], '\r' ∉ p.2 := by decide
  have hacts : ∀ act ∈ bracketing ++ clearing, act.Allowed ∧ act.Genuine ∧ act.Unforged := by
    decide
  obtain ⟨s, hs⟩ : ∃ s, s = (start linter .default [("a", [])]).run linter bracketing := ⟨_, rfl⟩
  obtain ⟨t, ht⟩ : ∃ t, t = s.run linter (.call "lint" [.bool true] :: clearing) := ⟨_, rfl⟩
  have hbefore : s.exchange.host.attached? = some ⟨[['(']], [0], 1⟩ ∧
      s.exchange.host.client.nextCall = 1 := by
    rw [hs]
    decide +kernel
  have hafter : t.exchange.waiting.isEmpty ∧ t.exchange.host.client.inbox.isEmpty ∧
      t.exchange.host.client.phase ≠ .faulted := by
    rw [ht, hs]
    decide +kernel
  obtain ⟨hattached, hid⟩ := hbefore
  obtain ⟨hwaiting, hinbox, hphase⟩ := hafter
  obtain ⟨-, -, hanswered⟩ := call_answered .default [("a", [])] bracketing clearing
    [.bool true] s t hs ht hdocs hacts hphase ⟨[['(']], [0], 1⟩ hattached
  rw [hid, List.isEmpty_iff.1 hwaiting, List.isEmpty_iff.1 hinbox] at hanswered
  obtain ⟨hanswers, -, hruns⟩ := hanswered List.not_mem_nil
  exact ⟨hanswers, hruns List.not_mem_nil, by decide +kernel⟩

end Session

end CodeEditing.Worker
