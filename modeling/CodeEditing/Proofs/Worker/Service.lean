import CodeEditing.Proofs.Worker.Answers
import CodeEditing.Proofs.Worker.Bursts
import CodeEditing.Proofs.Worker.Wire
import CodeEditing.Worker.Stream

/-! Serving a stream.

A worker that serves a stream has two sides. One reads messages and lets them wait; it passes over
those it cannot make out and stops at the end of the stream or at a fault of the framing. The other
takes them and handles them, and when none waits the burst is over: it looks at its copy and writes
what has come of the burst. When nothing waits any more and the reading has stopped, it is done.
Neither side waits for the other but for a message, so how the messages fall into bursts is not
determined. A `Service` is where both sides stand, with the bursts so far.

Whatever the order of the moves, nothing read is lost or handled twice (`Serves.move`), and a service
gets done, since every move leaves less to do (`toDo_lt`). Every cut of the messages into bursts comes
about (`exists_run_of_bursts`). A reader that dies of a length no buffer can have has stopped at a fault
like any other: what has been read by then is handled, and the service ends with the fault. -/
namespace CodeEditing.Worker

open Json (Decoder Value)

/-! ### What is read -/

theorem next_length_le (d : Decoder α) (bytes : List UInt8) :
    (next d bytes).2.length ≤ bytes.length := by
  cases bytes with
  | nil => exact Nat.le_of_eq (by rw [next, nextBody])
  | cons b bs => exact Nat.le_of_lt (next_shorter d b bs)

/-- Reading gets on, unless the stream ends. -/
theorem next_length_lt {d : Decoder α} {bytes : List UInt8} (h : (next d bytes).1 ≠ .ok none) :
    (next d bytes).2.length < bytes.length := by
  cases bytes with
  | nil =>
    rw [next, nextBody] at h
    exact absurd rfl h
  | cons b bs => exact next_shorter d b bs

/-- The messages of a stream, by what is read next. -/
theorem hostMessages_eq (input : List UInt8) : hostMessages input =
    match next HostMessage.decode input with
    | (.ok none, _) => ([], none)
    | (.ok (some m), rest) => (m :: (hostMessages rest).1, (hostMessages rest).2)
    | (.error (.malformed _ _), rest) => hostMessages rest
    | (.error f, _) => ([], some f) := by
  cases input with
  | nil => simp only [next, nextBody, hostMessages, readAll, untilFault]
  | cons b bs =>
    rw [hostMessages, readAll]
    obtain ⟨r, rest⟩ := next HostMessage.decode (b :: bs)
    cases r with
    | ok m =>
      cases m with
      | none => simp only [untilFault]
      | some m => simp only [untilFault, hostMessages]
    | error f =>
      cases f <;> simp [untilFault, hostMessages, FrameFault.isFinal]

/-- A body in a frame is a message, or it is passed over; either way reading goes on behind it. -/
theorem hostMessages_frame {body : List UInt8} (hne : body ≠ [])
    (hsize : body.length ≤ Text.maxCount) (rest : List UInt8) : hostMessages (frame body ++ rest) =
      match Json.decodeText HostMessage.decode body with
      | .ok m => (m :: (hostMessages rest).1, (hostMessages rest).2)
      | .error _ => hostMessages rest := by
  rw [hostMessages_eq, next, nextBody_frame hne hsize]
  dsimp only
  cases Json.decodeText HostMessage.decode body <;> rfl

/-- A stream that ends inside of a body of the length, behind frames with the other bodies. -/
structure EndsInside (input : List UInt8) (bodies : List (List UInt8)) (length : Nat) : Prop where
  sizes : ∀ body ∈ bodies, body ≠ [] ∧ body.length ≤ Text.maxCount
  announced : ∃ (b : Block) (part : List UInt8), b.Gives (some length) ∧ part.length < length ∧
    input = bodies.flatMap frame ++ (b.bytes ++ part)

/-- The bodies before the one that is not all there are messages or passed over, and the conversation
ends with what is wrong about that one. -/
theorem EndsInside.hostMessages_eq {input : List UInt8} {bodies : List (List UInt8)} {length : Nat}
    (h : EndsInside input bodies length) : hostMessages input =
      (bodies.filterMap fun body => (Json.decodeText HostMessage.decode body).toOption,
        some (.missing length)) := by
  obtain ⟨hsizes, b, part, hgives, hshort, rfl⟩ := h
  induction bodies with
  | nil =>
    rw [List.flatMap_nil, List.nil_append, Worker.hostMessages_eq, next, nextBody_short hgives hshort]
    rfl
  | cons body bodies ih =>
    obtain ⟨⟨hne, hsize⟩, hmore⟩ := List.forall_mem_cons.1 hsizes
    rw [List.flatMap_cons, List.append_assoc, hostMessages_frame hne hsize, ih hmore,
      List.filterMap_cons]
    cases Json.decodeText HostMessage.decode body <;> rfl

/-- A length that no buffer can have. -/
example : EndsInside (bytesOf "Content-Length: 18446744073709551615\r\n\r\n") []
    Text.maxCount where
  sizes := List.forall_mem_nil _
  announced := ⟨headOf Text.maxCount, [], headOf_gives (Nat.le_refl _), by decide, by decide +kernel⟩

/-! ### One more -/

namespace Follower
variable {σ : Type}

theorem handleAll_concat (a : Analysis σ) (w : Follower σ) (hs : List HostMessage) (m : HostMessage) :
    w.handleAll a (hs ++ [m]) = (w.handleAll a hs).andThen fun w => w.handle a m := by
  rw [handleAll_append]
  simp only [handleAll, Turn.andThen_send_nil]

theorem bursts_concat (a : Analysis σ) (w : Follower σ) (xs : List (List HostMessage))
    (hs : List HostMessage) :
    w.bursts a (xs ++ [hs]) = (w.bursts a xs).andThen fun w => w.burst a hs := by
  induction xs generalizing w with
  | nil => simp only [List.nil_append, bursts, Turn.andThen_send_nil, Turn.send_nil_andThen]
  | cons x xs ih => simp only [List.cons_append, bursts, Turn.andThen_assoc, ih]

end Follower

/-! ### Moves -/

/-- Where a service stands: what is left to read, how reading has ended if it has, the messages that
wait, the worker, the messages handled in the burst under way and what it sends, the bursts that are
over, what they have sent, and the bytes written. -/
structure Service (σ : Type) where
  unread : List UInt8
  ending : Option (Option FrameFault)
  waiting : List HostMessage
  worker : Follower σ
  burst : List HostMessage
  outbox : List WorkerMessage
  done : List (List HostMessage)
  sent : List WorkerMessage
  written : List UInt8

/-- How a conversation ends that nothing but a fault of the input can spoil. -/
def Ending.after : Option FrameFault → Ending
  | none => .done
  | some f => .input f

namespace Service
variable {σ : Type}

/-- Either side can move: the one that reads, or the one that handles. -/
inductive Move where
  | read
  | take
  | finish
  deriving Repr, DecidableEq

def start (a : Analysis σ) (input : List UInt8) : Service σ :=
  ⟨input, none, [], a.follower, [], [], [], [], []⟩

/-- Reads what is next. -/
def read (s : Service σ) : Service σ :=
  match next HostMessage.decode s.unread with
  | (.ok none, rest) => {s with unread := rest, ending := some none}
  | (.ok (some m), rest) => {s with unread := rest, waiting := s.waiting ++ [m]}
  | (.error (.malformed _ _), rest) => {s with unread := rest}
  | (.error f, rest) => {s with unread := rest, ending := some (some f)}

/-- Handles the message that has waited longest. -/
def take (a : Analysis σ) (s : Service σ) (m : HostMessage) (more : List HostMessage) : Service σ :=
  let t := s.worker.handle a m
  {s with
    waiting := more
    worker := t.follower
    burst := s.burst ++ [m]
    outbox := s.outbox ++ t.sent}

/-- Ends the burst: looks at the copy, and writes a frame for every message. -/
def finish (a : Analysis σ) (s : Service σ) : Service σ :=
  let t := s.worker.finish a
  let out := s.outbox ++ t.sent
  {s with
    worker := t.follower
    burst := []
    outbox := []
    done := s.done ++ [s.burst]
    sent := s.sent ++ out
    written := s.written ++ out.flatMap fun m => frameOf m.toJson}

/-- A move, if it can be made: nothing is read when reading has ended, and a burst ends when something
has been handled and nothing waits. -/
def step? (a : Analysis σ) (s : Service σ) : Move → Option (Service σ)
  | .read => if s.ending.isSome then none else some s.read
  | .take =>
    match s.waiting with
    | [] => none
    | m :: more => some (s.take a m more)
  | .finish => if s.burst.isEmpty || !s.waiting.isEmpty then none else some (s.finish a)

def run? (a : Analysis σ) (s : Service σ) (moves : List Move) : Option (Service σ) :=
  moves.foldlM (step? a) s

/-- Reading has ended, and there is nothing left to handle. -/
structure Over (s : Service σ) : Prop where
  ended : s.ending.isSome
  waiting : s.waiting = []
  burst : s.burst = []

/-- How the service ends. -/
def result (s : Service σ) : Ending := .after s.ending.join

/-- What is still to be read. -/
def ahead (s : Service σ) : List HostMessage × Option FrameFault :=
  match s.ending with
  | none => hostMessages s.unread
  | some fault => ([], fault)

variable {a : Analysis σ} {s s' : Service σ}

/-- What reading can do: come to a message, pass over a body, or end. -/
inductive Reads (s : Service σ) : Service σ → Prop
  | message {m : HostMessage} {rest : List UInt8} (shorter : rest.length < s.unread.length)
      (messages : hostMessages s.unread = (m :: (hostMessages rest).1, (hostMessages rest).2)) :
      Reads s {s with unread := rest, waiting := s.waiting ++ [m]}
  | pass {rest : List UInt8} (shorter : rest.length < s.unread.length)
      (messages : hostMessages s.unread = hostMessages rest) : Reads s {s with unread := rest}
  | stop {rest : List UInt8} {fault : Option FrameFault} (short : rest.length ≤ s.unread.length)
      (messages : hostMessages s.unread = ([], fault)) :
      Reads s {s with unread := rest, ending := some fault}

theorem reads_read (s : Service σ) : Reads s s.read := by
  have hmessages := hostMessages_eq s.unread
  have hle := next_length_le HostMessage.decode s.unread
  have hlt := @next_length_lt _ HostMessage.decode s.unread
  rw [read]
  generalize next HostMessage.decode s.unread = p at hmessages hle hlt ⊢
  obtain ⟨r, rest⟩ := p
  cases r with
  | ok m =>
    cases m with
    | none => exact .stop hle hmessages
    | some m => exact .message (hlt (by simp)) hmessages
  | error f =>
    cases f with
    | malformed body problem => exact .pass (hlt (by simp)) hmessages
    | badLength value => exact .stop hle hmessages
    | cutShort => exact .stop hle hmessages
    | notText => exact .stop hle hmessages

/-- What a move can do. -/
inductive Moves (a : Analysis σ) (s : Service σ) : Move → Service σ → Prop
  | read {s' : Service σ} (open_ : s.ending = none) (reads : Reads s s') : Moves a s .read s'
  | take {m : HostMessage} {more : List HostMessage} (waiting : s.waiting = m :: more) :
      Moves a s .take (s.take a m more)
  | finish (some : s.burst ≠ []) (none : s.waiting = []) : Moves a s .finish (s.finish a)

theorem step?_moves {move : Move} (h : s.step? a move = some s') : Moves a s move s' := by
  cases move with
  | read =>
    rw [step?] at h
    split at h
    · cases h
    · next hopen =>
      obtain rfl := Option.some.inj h
      exact .read (Option.not_isSome_iff_eq_none.1 hopen) s.reads_read
  | take =>
    rw [step?] at h
    split at h
    · cases h
    · next hwaiting =>
      obtain rfl := Option.some.inj h
      exact .take hwaiting
  | finish =>
    rw [step?] at h
    split at h
    · cases h
    · next hboth =>
      obtain rfl := Option.some.inj h
      rw [Bool.not_eq_true, Bool.or_eq_false_iff, Bool.not_eq_false'] at hboth
      exact .finish (by simpa using hboth.1) (by simpa using hboth.2)

/-! ### Nothing is lost -/

/-- What holds of a service that has begun with an input: its bursts, what has been handled since,
what waits, and what is still to be read are the messages of the input in order, and the worker and
what it has sent and written are what handling them gives. -/
structure Serves (a : Analysis σ) (input : List UInt8) (s : Service σ) : Prop where
  messages : s.done.flatten ++ s.burst ++ s.waiting ++ s.ahead.1 = (hostMessages input).1
  fault : s.ahead.2 = (hostMessages input).2
  handled : [] ∉ s.done
  worker : s.worker = ((a.follower.bursts a s.done).follower.handleAll a s.burst).follower
  outbox : s.outbox = ((a.follower.bursts a s.done).follower.handleAll a s.burst).sent
  sent : s.sent = (a.follower.bursts a s.done).sent
  written : s.written = s.sent.flatMap fun m => frameOf m.toJson

namespace Serves
variable {input : List UInt8}

theorem start (a : Analysis σ) (input : List UInt8) : Serves a input (.start a input) where
  messages := rfl
  fault := rfl
  handled := List.not_mem_nil
  worker := rfl
  outbox := rfl
  sent := rfl
  written := rfl

/-- Reading only moves a message from what is ahead to what waits. -/
theorem reads (h : Serves a input s) (hopen : s.ending = none) (hr : Reads s s') :
    Serves a input s' := by
  obtain ⟨hmessages, hfault, hhandled, hworker, houtbox, hsent, hwritten⟩ := h
  have hahead : s.ahead = hostMessages s.unread := by rw [ahead, hopen]
  rw [hahead] at hmessages hfault
  cases hr with
  | @message m rest shorter messages =>
    rw [messages] at hmessages hfault
    refine ⟨?_, ?_, hhandled, hworker, houtbox, hsent, hwritten⟩
    · rw [← hmessages]
      simp [ahead, hopen]
    · rw [← hfault]
      simp [ahead, hopen]
  | @pass rest shorter messages =>
    rw [messages] at hmessages hfault
    refine ⟨?_, ?_, hhandled, hworker, houtbox, hsent, hwritten⟩
    · rw [← hmessages]
      simp [ahead, hopen]
    · rw [← hfault]
      simp [ahead, hopen]
  | stop short messages =>
    rw [messages] at hmessages hfault
    exact ⟨hmessages, hfault, hhandled, hworker, houtbox, hsent, hwritten⟩

theorem take (h : Serves a input s) {m : HostMessage} {more : List HostMessage}
    (hwaiting : s.waiting = m :: more) : Serves a input (s.take a m more) := by
  have hone := (a.follower.bursts a s.done).follower.handleAll_concat a s.burst m
  refine ⟨?_, h.fault, h.handled, ?_, ?_, h.sent, h.written⟩
  · show s.done.flatten ++ (s.burst ++ [m]) ++ more ++ s.ahead.1 = _
    rw [← h.messages, hwaiting]
    simp
  · show (s.worker.handle a m).follower =
      ((a.follower.bursts a s.done).follower.handleAll a (s.burst ++ [m])).follower
    rw [hone, h.worker]
    rfl
  · show s.outbox ++ (s.worker.handle a m).sent =
      ((a.follower.bursts a s.done).follower.handleAll a (s.burst ++ [m])).sent
    rw [hone, h.worker, h.outbox]
    rfl

theorem finish (h : Serves a input s) (hsome : s.burst ≠ []) : Serves a input (s.finish a) := by
  have hone := a.follower.bursts_concat a s.done s.burst
  have hsent : s.sent ++ (s.outbox ++ (s.worker.finish a).sent) =
      (a.follower.bursts a (s.done ++ [s.burst])).sent := by
    rw [hone, h.sent, h.outbox, h.worker]
    rfl
  refine ⟨?_, h.fault, ?_, ?_, rfl, hsent, ?_⟩
  · show (s.done ++ [s.burst]).flatten ++ [] ++ s.waiting ++ s.ahead.1 = _
    rw [← h.messages]
    simp
  · rw [Service.finish, List.mem_append, List.mem_singleton, not_or]
    exact ⟨h.handled, hsome.symm⟩
  · show (s.worker.finish a).follower = (a.follower.bursts a (s.done ++ [s.burst])).follower
    rw [hone, h.worker]
    rfl
  · show s.written ++ _ = List.flatMap _ (s.sent ++ _)
    rw [h.written, ← List.flatMap_append]

theorem move (h : Serves a input s) {move : Move} (hm : Moves a s move s') : Serves a input s' := by
  cases hm with
  | read open_ reads => exact h.reads open_ reads
  | take waiting => exact h.take waiting
  | finish some none => exact h.finish some

theorem run (h : Serves a input s) {moves : List Move} (hrun : s.run? a moves = some s') :
    Serves a input s' := by
  induction moves generalizing s with
  | nil =>
    obtain rfl := Option.some.inj hrun
    exact h
  | cons move moves ih =>
    obtain ⟨next, hstep, hrun⟩ := Option.bind_eq_some_iff.1 hrun
    exact ih (h.move (step?_moves hstep)) hrun

end Serves

/-! ### Getting done -/

/-- How much there is to do: a byte may be a message to be read, handled and told of. -/
def toDo (s : Service σ) : Nat :=
  3 * s.unread.length + s.ending.isNone.toNat + 2 * s.waiting.length + (!s.burst.isEmpty).toNat

theorem toDo_lt {move : Move} (hm : Moves a s move s') : s'.toDo < s.toDo := by
  cases hm with
  | read open_ reads =>
    cases reads with
    | message shorter messages =>
      simp only [toDo, List.length_append, List.length_singleton]
      omega
    | pass shorter messages =>
      simp only [toDo]
      omega
    | stop short messages =>
      simp only [toDo, open_, Option.isNone_none, Option.isNone_some, Bool.toNat_true,
        Bool.toNat_false]
      omega
  | @take m more waiting =>
    have := Bool.toNat_le (!(s.burst ++ [m]).isEmpty)
    simp only [toDo, Service.take, waiting, List.length_cons]
    omega
  | finish some none =>
    have : s.burst.isEmpty = false := by simpa using some
    simp only [toDo, Service.finish, this, none, List.isEmpty_nil, Bool.not_true, Bool.not_false,
      Bool.toNat_true, Bool.toNat_false]
    omega

theorem length_add_toDo_le {moves : List Move} (h : s.run? a moves = some s') :
    moves.length + s'.toDo ≤ s.toDo := by
  induction moves generalizing s with
  | nil =>
    obtain rfl := Option.some.inj h
    exact Nat.le_of_eq (Nat.zero_add _)
  | cons move moves ih =>
    obtain ⟨next, hstep, hrun⟩ := Option.bind_eq_some_iff.1 h
    have := ih hrun
    have := toDo_lt (step?_moves hstep)
    rw [List.length_cons]
    omega

/-- A service that is not over can make a move, and one that is over cannot. -/
theorem over_iff (a : Analysis σ) (s : Service σ) : s.Over ↔ ∀ move, s.step? a move = none := by
  constructor
  · rintro ⟨hended, hwaiting, hburst⟩ move
    cases move with
    | read => exact if_pos hended
    | take => simp only [step?, hwaiting]
    | finish => simp [step?, hburst]
  · intro h
    have hended : s.ending.isSome := by
      by_contra hopen
      have := h .read
      rw [step?, if_neg hopen] at this
      cases this
    have hwaiting : s.waiting = [] := by
      cases hw : s.waiting with
      | nil => rfl
      | cons m more =>
        have := h .take
        simp only [step?, hw] at this
        cases this
    have hburst : s.burst = [] := by
      by_contra hsome
      have := h .finish
      rw [step?, if_neg (by simp [hwaiting, hsome])] at this
      cases this
    exact ⟨hended, hwaiting, hburst⟩

/-! ### Every cut into bursts -/

/-- Some moves lead from one place to another. -/
def Reaches (a : Analysis σ) (s s' : Service σ) : Prop := ∃ moves, s.run? a moves = some s'

namespace Reaches

theorem here (a : Analysis σ) (s : Service σ) : Reaches a s s := ⟨[], rfl⟩

theorem trans {s'' : Service σ} (h : Reaches a s s') (h' : Reaches a s' s'') : Reaches a s s'' := by
  obtain ⟨moves, hmoves⟩ := h
  obtain ⟨more, hmore⟩ := h'
  refine ⟨moves ++ more, ?_⟩
  rw [run?, List.foldlM_append, ← run?, hmoves]
  exact hmore

theorem move (move : Move) (h : s.step? a move = some s') : Reaches a s s' :=
  ⟨[move], by rw [run?, List.foldlM_cons, h]; rfl⟩

theorem read (a : Analysis σ) (hopen : s.ending = none) : Reaches a s s.read :=
  move .read (if_neg (by simp [hopen]))

/-- Reading comes to the next message or ends, whatever there is to be passed over before that. -/
theorem reading (a : Analysis σ) (hopen : s.ending = none) :
    (∃ m rest, hostMessages s.unread = (m :: (hostMessages rest).1, (hostMessages rest).2) ∧
      Reaches a s {s with unread := rest, waiting := s.waiting ++ [m]}) ∨
    (∃ fault rest, hostMessages s.unread = ([], fault) ∧
      Reaches a s {s with unread := rest, ending := some fault}) := by
  induction hn : s.unread.length using Nat.strongRecOn generalizing s with
  | ind n ih =>
    have hread := read a hopen
    have hreads := s.reads_read
    generalize s.read = s' at hread hreads
    cases hreads with
    | @message m rest shorter messages => exact .inl ⟨m, rest, messages, hread⟩
    | @pass rest shorter messages =>
      obtain ⟨m, rest', hrest, hreach⟩ | ⟨fault, rest', hrest, hreach⟩ :=
        ih rest.length (hn ▸ shorter) (s := {s with unread := rest}) hopen rfl
      · exact .inl ⟨m, rest', messages.trans hrest, hread.trans hreach⟩
      · exact .inr ⟨fault, rest', messages.trans hrest, hread.trans hreach⟩
    | @stop rest fault short messages => exact .inr ⟨fault, rest, messages, hread⟩

theorem message (hopen : s.ending = none) {m : HostMessage} {ms : List HostMessage}
    {fault : Option FrameFault} (h : hostMessages s.unread = (m :: ms, fault)) :
    ∃ rest, hostMessages rest = (ms, fault) ∧
      Reaches a s {s with unread := rest, waiting := s.waiting ++ [m]} := by
  obtain ⟨k, rest, hnext, hreach⟩ | ⟨_, _, hnext, -⟩ := reading a hopen
  · rw [h, Prod.mk.injEq, List.cons.injEq] at hnext
    obtain ⟨⟨rfl, hms⟩, hfault⟩ := hnext
    exact ⟨rest, Prod.ext hms.symm hfault.symm, hreach⟩
  · rw [h, Prod.mk.injEq] at hnext
    cases hnext.1

theorem stop (hopen : s.ending = none) {fault : Option FrameFault}
    (h : hostMessages s.unread = ([], fault)) :
    ∃ rest, Reaches a s {s with unread := rest, ending := some fault} := by
  obtain ⟨_, _, hnext, -⟩ | ⟨_, rest, hnext, hreach⟩ := reading a hopen
  · rw [h, Prod.mk.injEq] at hnext
    cases hnext.1
  · rw [h, Prod.mk.injEq] at hnext
    exact ⟨rest, hnext.2 ▸ hreach⟩

/-- Some of the messages ahead can be read at once. -/
theorem messages (hopen : s.ending = none) {ms more : List HostMessage} {fault : Option FrameFault}
    (h : hostMessages s.unread = (ms ++ more, fault)) :
    ∃ rest, hostMessages rest = (more, fault) ∧
      Reaches a s {s with unread := rest, waiting := s.waiting ++ ms} := by
  induction ms generalizing s with
  | nil => exact ⟨s.unread, h, by rw [List.append_nil]; exact here a s⟩
  | cons m ms ih =>
    obtain ⟨rest, hrest, hreach⟩ := message (a := a) hopen h
    obtain ⟨rest', hrest', hreach'⟩ :=
      ih (s := {s with unread := rest, waiting := s.waiting ++ [m]}) hopen hrest
    refine ⟨rest', hrest', hreach.trans ?_⟩
    rwa [List.append_assoc] at hreach'

/-- All that waits can be handled. -/
theorem handling (a : Analysis σ) (s : Service σ) : Reaches a s {s with
    waiting := []
    worker := (s.worker.handleAll a s.waiting).follower
    burst := s.burst ++ s.waiting
    outbox := s.outbox ++ (s.worker.handleAll a s.waiting).sent} := by
  obtain ⟨unread, ending, waiting, worker, burst, outbox, done, sent, written⟩ := s
  induction waiting generalizing worker burst outbox with
  | nil =>
    simp only [Follower.handleAll, Turn.send, List.append_nil]
    exact here a _
  | cons m more ih =>
    have hfirst : Reaches a _ _ :=
      move (a := a) (s := ⟨unread, ending, m :: more, worker, burst, outbox, done, sent, written⟩) .take rfl
    refine hfirst.trans ?_
    have hrest := ih (worker.handle a m).follower (burst ++ [m]) (outbox ++ (worker.handle a m).sent)
    simp only [List.append_assoc, List.singleton_append] at hrest
    exact hrest

/-- A burst can be what is next ahead. -/
theorem burst (hopen : s.ending = none) (hwaiting : s.waiting = []) (hburst : s.burst = [])
    {ms more : List HostMessage} {fault : Option FrameFault} (hne : ms ≠ [])
    (h : hostMessages s.unread = (ms ++ more, fault)) :
    ∃ s', Reaches a s s' ∧ s'.ending = none ∧ s'.waiting = [] ∧ s'.burst = [] ∧
      s'.done = s.done ++ [ms] ∧ hostMessages s'.unread = (more, fault) := by
  obtain ⟨rest, hrest, hread⟩ := messages (a := a) hopen h
  have hhandled := handling a {s with unread := rest, waiting := s.waiting ++ ms}
  simp only [hwaiting, hburst, List.nil_append] at hread hhandled
  refine ⟨_, (hread.trans hhandled).trans (move .finish (if_neg ?_)), hopen, rfl, rfl, rfl, hrest⟩
  simpa using hne

/-- Whatever cut of the messages ahead into bursts can come about. -/
theorem bursts (hopen : s.ending = none) (hwaiting : s.waiting = []) (hburst : s.burst = [])
    {xs : List (List HostMessage)} {fault : Option FrameFault} (hne : [] ∉ xs)
    (h : hostMessages s.unread = (xs.flatten, fault)) :
    ∃ s', Reaches a s s' ∧ s'.Over ∧ s'.done = s.done ++ xs := by
  induction xs generalizing s with
  | nil =>
    obtain ⟨rest, hstop⟩ := stop (a := a) hopen h
    exact ⟨_, hstop, ⟨rfl, hwaiting, hburst⟩, (List.append_nil _).symm⟩
  | cons ms more ih =>
    rw [List.mem_cons, not_or] at hne
    obtain ⟨s', hreach, hopen', hwaiting', hburst', hdone, hmore⟩ :=
      burst (a := a) hopen hwaiting hburst (Ne.symm hne.1) h
    obtain ⟨s'', hreach', hover, hdone'⟩ := ih hopen' hwaiting' hburst' hne.2 hmore
    refine ⟨s'', hreach.trans hreach', hover, ?_⟩
    rw [hdone', hdone, List.append_assoc]
    rfl

end Reaches

theorem exists_run_of_bursts (a : Analysis σ) {input : List UInt8} {xs : List (List HostMessage)}
    (hne : [] ∉ xs) (h : xs.flatten = (hostMessages input).1) :
    ∃ moves s, (start a input).run? a moves = some s ∧ s.Over ∧ s.done = xs := by
  obtain ⟨s, ⟨moves, hmoves⟩, hover, hdone⟩ := Reaches.bursts (a := a) (s := start a input) rfl rfl rfl
    hne (Prod.ext h.symm rfl)
  exact ⟨moves, s, hmoves, hover, hdone⟩

end Service

/-! ### What is answered -/

namespace Follower

/-- The linter answers a message under the number it carries, once, or not at all. -/
theorem numbers_handle (w : Follower Unit) (m : HostMessage) :
    (w.handle linter m).sent.filterMap WorkerMessage.number? = m.asks?.toList := by
  cases m with
  | init flag tlns module classname =>
    show (linter.init w.state module classname tlns).2.filterMap _ = []
    simp only [linter]
    split <;> rfl
  | command name args =>
    show (if name = "setValue" then w.setValue args
      else w.command linter name args).sent.filterMap _ = _
    rw [HostMessage.asks?]
    split
    · cases hid : setValueCall? args <;> simp [setValue, Turn.send, hid, WorkerMessage.number?]
    · rw [sent_command]
      split
      · cases args.getLast?.bind Value.nat? <;> rfl
      · rfl
  | event name data =>
    show (if name = "change" then w.change data else .send w []).sent.filterMap _ = []
    split
    · unfold change
      split <;> rfl
    · rfl

theorem numbers_handleAll (w : Follower Unit) (ms : List HostMessage) :
    (w.handleAll linter ms).sent.filterMap WorkerMessage.number? = ms.filterMap HostMessage.asks? := by
  induction ms generalizing w with
  | nil => rfl
  | cons m ms ih =>
    show (_ ++ _ : List WorkerMessage).filterMap _ = _
    rw [List.filterMap_append, numbers_handle, ih, List.filterMap_cons]
    cases m.asks? <;> rfl

end Follower

/-- Only asides are answers. -/
theorem filterMap_number?_asides (sent : List WorkerMessage) :
    (sent.filter WorkerMessage.isAside).filterMap WorkerMessage.number? =
      sent.filterMap WorkerMessage.number? := by
  rw [List.filterMap_filter]
  refine congrArg (List.filterMap · sent) (funext fun k => ?_)
  cases k <;> rfl

namespace Service

/-- What there is at the end of a service. -/
theorem Serves.over {a : Analysis σ} {input : List UInt8} {s : Service σ} (h : Serves a input s)
    (hover : s.Over) : s.done.flatten = (hostMessages input).1 ∧
      s.worker = (a.follower.bursts a s.done).follower ∧
      s.result = .after (hostMessages input).2 := by
  obtain ⟨hended, hwaiting, hburst⟩ := hover
  obtain ⟨fault, hending⟩ := Option.isSome_iff_exists.1 hended
  have hahead : s.ahead = ([], fault) := by rw [ahead, hending]
  have hmessages := h.messages
  have hfault := h.fault
  have hworker := h.worker
  rw [hburst, hwaiting, hahead, List.append_nil, List.append_nil, List.append_nil] at hmessages
  rw [hahead] at hfault
  rw [hburst] at hworker
  exact ⟨hmessages, hworker, by rw [result, hending, ← hfault]; rfl⟩

/-- A host whose messages all wait together is served as a service serves it that reads all first. -/
theorem exists_run_of_serve (a : Analysis σ) (input : List UInt8) :
    ∃ moves s, (start a input).run? a moves = some s ∧ s.Over ∧
      serve a none input = (s.written, s.result) := by
  have hcut : ∃ xs : List (List HostMessage), [] ∉ xs ∧ xs.flatten = (hostMessages input).1 ∧
      (a.follower.bursts a xs).sent = (a.follower.burst a (hostMessages input).1).sent := by
    cases (hostMessages input).1 with
    | nil => exact ⟨[], List.not_mem_nil, rfl, rfl⟩
    | cons m ms =>
      refine ⟨[m :: ms], by simp, List.flatten_singleton, ?_⟩
      show ((a.follower.burst a (m :: ms)).andThen fun w => .send w []).sent = _
      rw [Turn.andThen_send_nil]
  obtain ⟨xs, hne, hflatten, hsent⟩ := hcut
  obtain ⟨moves, s, hrun, hover, hdone⟩ := exists_run_of_bursts a hne hflatten
  have hserves := (Serves.start a input).run hrun
  obtain ⟨-, -, hresult⟩ := hserves.over hover
  refine ⟨moves, s, hrun, hover, ?_⟩
  rw [hserves.written, hserves.sent, hdone, hsent, hresult, serve]
  simp only [Nat.lt_irrefl, if_false]
  cases (hostMessages input).2 <;> rfl

/-- **Serving a stream.** However reading and handling take turns, a service of the linter gets done,
and then it has handled the messages that come before a fault of the framing, or before the end, in
order and cut into bursts; it has written a frame for each message it sent, in order; every message
that carries a number to answer under has been answered once, in order; the last verdict is the one on
the copy in the end, if the copy was revised; and it ends with the fault, if there is one. Every cut
into bursts comes about, among them the one of a host whose messages all wait together. If the input
ends inside of a body, the messages are those in the frames before it, and the fault tells whether there
was too little for it or whether no buffer could have been that long. -/
theorem serves_input (input : List UInt8) :
    let messages : List HostMessage := (hostMessages input).1
    let fault : Option FrameFault := (hostMessages input).2
    let handled := linter.follower.handleAll linter messages
    (∀ bodies length, EndsInside input bodies length →
      messages = bodies.filterMap (fun body => (Json.decodeText HostMessage.decode body).toOption) ∧
        fault = some (.missing length)) ∧
    (∀ moves s, (start linter input).run? linter moves = some s →
      moves.length ≤ 3 * input.length + 1 ∧
      (¬s.Over → ∃ move s', s.step? linter move = some s') ∧
      (s.Over →
        s.done.flatten = messages ∧
        s.sent = (linter.follower.bursts linter s.done).sent ∧
        s.written = s.sent.flatMap (fun m => frameOf m.toJson) ∧
        s.sent.filter WorkerMessage.isAside = handled.sent ∧
        s.sent.filterMap WorkerMessage.number? = messages.filterMap HostMessage.asks? ∧
        s.worker.doc = handled.follower.doc ∧
        (s.sent.filter WorkerMessage.judges).getLast? =
          (if messages.any HostMessage.revises then some (verdict s.worker.doc) else none) ∧
        s.result = .after fault)) ∧
    (∀ bursts, bursts.flatten = messages → [] ∉ bursts →
      ∃ moves s, (start linter input).run? linter moves = some s ∧ s.Over ∧ s.done = bursts) ∧
    ∃ moves s, (start linter input).run? linter moves = some s ∧ s.Over ∧
      serve linter none input = (s.written, s.result) := by
  intro messages fault handled
  refine ⟨fun bodies length h => Prod.mk.inj h.hostMessages_eq,
    fun moves s hrun => ⟨?_, fun hnot => ?_, fun hover => ?_⟩,
    fun bursts hflatten hne => exists_run_of_bursts linter hne hflatten,
    exists_run_of_serve linter input⟩
  · exact Nat.le_trans (Nat.le_add_right _ _) (length_add_toDo_le hrun)
  · by_contra hnone
    refine hnot ((over_iff linter s).2 fun move => ?_)
    by_contra hsome
    obtain ⟨s', hs'⟩ := Option.ne_none_iff_exists'.1 hsome
    exact hnone ⟨move, s', hs'⟩
  · have hserves := (Serves.start linter input).run hrun
    obtain ⟨hdone, hworker, hresult⟩ := hserves.over hover
    have hbursts := Follower.bursts_linter (w := linter.follower) rfl s.done
    rw [hdone] at hbursts
    obtain ⟨hfollower, hasides, -, hlast⟩ := hbursts
    rw [← hserves.sent] at hasides hlast
    have hdoc : s.worker.doc = handled.follower.doc := by rw [hworker, hfollower]
    refine ⟨hdone, hserves.sent, hserves.written, hasides, ?_, hdoc, ?_, hresult⟩
    · rw [← filterMap_number?_asides, hasides, Follower.numbers_handleAll]
    · rw [hlast, hdoc]

end Service

end CodeEditing.Worker
