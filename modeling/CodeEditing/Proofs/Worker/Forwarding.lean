import CodeEditing.Proofs.Worker.Life

/-! What becomes of changes.

Every document tells all who listen to it of its changes, and a listener that a client has given up may
be among them still. Yet a document has at most one that sends changes on: numbers of listeners are
never used again, and the client knows the number of the one that counts (`Host.Wired`). So every
change of the document attached goes to the worker once, and no other does
(`Host.edits_forwarded`). -/
namespace CodeEditing.Worker

open Document (Revision TextDocument)

/-! ### Which document is attached -/

/-- After a deed that went so no document is attached: it is given up, or the client fails. -/
def Deed.letsGo (d : Deed) (result : Except Refusal (Option Nat)) : Bool :=
  d.isLeaving || match result with
    | .error e => !e.isOutright
    | .ok _ => false

namespace Host

/-- The document that a deed attaches. -/
def attaches (h : Host) (s : Step) : Option String :=
  match s.deed, (h.perform s).result with
  | .attach name, .ok _ => if (h.doc? name).isSome then some name else none
  | _, _ => none

/-- The document attached behind a deed. -/
def heldAfter (h : Host) (held : Option String) (s : Step) : Option String :=
  if s.deed.letsGo (h.perform s).result then none else (h.attaches s).or held

/-- The document attached last, unless it has been given up or the client has failed since. -/
def held (h : Host) (before : Option String) : List Step → Option String
  | [] => before
  | s :: steps => (h.perform s).host.held (h.heldAfter before s) steps

end Host

theorem Effect.Sent.apart {e : Effect} (h : e.Sent) : e.Apart := by
  cases e <;> trivial

theorem Effect.Parting.unlistening {e : Effect} (h : e.Parting) : e.Unlistening := by
  cases e <;> trivial

namespace Client
variable {c : Client} {d : Deed} {r : Attempt (Option Nat)}

/-- A deed that attaches nothing lets the document attached go, or keeps to it and leaves the
documents alone. -/
theorem Passage.keeping (h : c.Sound) (hr : Passage c d r) (hd : ∀ name, d ≠ .attach name) :
    if d.letsGo r.result then r.client.attachment = none ∧ ∀ e ∈ r.effects, e.Unlistening
    else r.client.attachment = c.attachment ∧ ∀ e ∈ r.effects, e.Apart := by
  have hgo {result : Except Refusal (Option Nat)} {p q : Prop} (hgo : d.letsGo result = true)
      (hp : p) : if d.letsGo result then p else q := by rwa [if_pos hgo]
  have hstay {result : Except Refusal (Option Nat)} {p q : Prop} (hgo : d.letsGo result = false)
      (hq : q) : if d.letsGo result then p else q := by rwa [if_neg (by simp [hgo])]
  cases hr with
  | refused hd he =>
    exact hstay (by simp [Deed.letsGo, hd, he]) ⟨rfl, fun e he => absurd he List.not_mem_nil⟩
  | adopts hd hp hinbox =>
    exact hstay (by simp [Deed.letsGo, hd]) ⟨rfl, fun e he => List.mem_singleton.1 he ▸ trivial⟩
  | fails next hd hp he heffects =>
    exact hgo (by simp [Deed.letsGo, he]) ⟨rfl, fun e he => (heffects e he).unlistening⟩
  | pumps hd hlive hms =>
    exact hstay (by simp [Deed.letsGo, Deed.isLeaving_pump hd])
      ⟨rfl, fun e he => (c.reactions_quiet _ e he).apart⟩
  | breaks hd hp hms =>
    refine hgo (by simp [Deed.letsGo, Refusal.isOutright]) ⟨rfl, fun e he => ?_⟩
    rcases List.mem_append.1 he with he | he
    · exact (c.reactions_quiet _ e he).apart.unlistening
    · rcases List.mem_cons.1 he with rfl | he
      · trivial
      · exact c.unlistening_releases e he
  | attaches hlive => exact absurd rfl (hd _)
  | leaves hlinked => exact hgo rfl ⟨rfl, c.unlistening_releases⟩
  | calls hlive => exact hstay rfl ⟨rfl, fun e he => List.mem_singleton.1 he ▸ trivial⟩
  | terminates hp =>
    refine hgo rfl ⟨rfl, fun e he => ?_⟩
    rcases List.mem_append.1 he with he | he
    · exact (c.notify_quiet _ _ e he).apart.unlistening
    · exact c.unlistening_releases e he
  | keeps link hend hleft hlink hinbox heffects =>
    obtain ⟨subscribers, nextSubscriber, hc⟩ := c.enrol_eq d
    rw [hc]
    have hapart := fun e he => (heffects e he).apart
    cases hleaving : d.isLeaving with
    | false => exact hstay (by simp [Deed.letsGo, hleaving]) ⟨rfl, hapart⟩
    | true =>
      have hnone : c.attachment = none := by
        cases d with
        | detach => exact hleft rfl
        | terminate => exact h.unattached (by rw [hend rfl]; decide)
        | _ => cases hleaving
      exact hgo (by simp [Deed.letsGo, hleaving]) ⟨hnone, fun e he => (hapart e he).unlistening⟩

end Client

/-! ### Who listens -/

namespace Host
variable {x : Host} {name : String} {d : TextDocument}

/-- The document attached, as long as it is there, has the client among its listeners, all of which
have different numbers. -/
structure Wired (x : Host) : Prop where
  sound : x.client.Sound
  docs : ∀ name d, x.doc? name = some d → Counted d
  listens : ∀ a d, x.client.attachment = some a → x.doc? a.doc = some d → a.listener ∈ d.listeners

theorem act_settles (x : Host) (f : Client → Reaction α) (busy : Option String)
    (g : α → Except Refusal (Option Nat)) :
    (Outcome.of (x.act f busy) g).host = (Outcome.of (x.act f busy) g).effects.foldl (settle busy)
      {x with client := (Outcome.of (x.act f busy) g).host.client} := by
  have hclient : (Outcome.of (x.act f busy) g).host.client = (f x.client).client :=
    act_client x f busy
  rw [hclient]
  rfl

/-- Unless a document is edited or let go, documents change by the effects. -/
theorem perform_settles (x : Host) {s : Step} (hedit : ∀ name r, s.deed ≠ .edit name r)
    (hdrop : ∀ name, s.deed ≠ .drop name) : (x.perform s).host =
      (x.perform s).effects.foldl (settle s.busy) {x with client := (x.perform s).host.client} := by
  obtain ⟨deed, busy⟩ := s
  cases deed with
  | edit name r => exact absurd rfl (hedit name r)
  | drop name => exact absurd rfl (hdrop name)
  | receive o => rfl
  | loseWorker => rfl
  | attach name =>
    unfold perform Host.attach
    dsimp only
    split
    · exact act_settles ..
    · rfl
  | _ => exact act_settles ..

namespace Wired

/-- Documents that thin out while none is attached, or do not change while it is. -/
theorem settled (h : x.Wired) {c : Client} (hc : c.Sound) {effects : List Effect}
    (hthin : ∀ e ∈ effects, e.Unlistening)
    (hkept : ∀ a, c.attachment = some a →
      x.client.attachment = some a ∧ ∀ e ∈ effects, e.Apart) (busy : Option String) :
    (effects.foldl (settle busy) {x with client := c}).Wired := by
  have hclient := foldl_settle_client busy {x with client := c} effects
  refine ⟨hclient ▸ hc, fun n e hn => ?_, fun a e ha hn => ?_⟩
  · obtain ⟨f, hf, hdoc⟩ := foldl_settle_thin busy {x with client := c} hthin n
    obtain ⟨d, hd, rfl⟩ := Option.map_eq_some_iff.1 (hdoc.symm.trans hn)
    exact (h.docs n d hd).thin (hf d)
  · rw [hclient] at ha
    obtain ⟨hsame, hapart⟩ := hkept a ha
    rw [foldl_settle_apart busy _ hapart] at hn
    exact h.listens a e hsame hn

theorem edit (h : x.Wired) (r : Revision) : (x.edit name (r.make ·)).1.Wired := by
  cases hd : x.doc? name with
  | none =>
    rw [Host.edit, hd]
    exact h
  | some d =>
    refine ⟨edit_client hd r ▸ h.sound, fun n e hn => ?_, fun a e ha hn => ?_⟩
    · rw [edit_doc? hd] at hn
      split at hn
      · exact Option.some.inj hn ▸ (h.docs name d hd).make r
      · exact h.docs n e hn
    · rw [edit_client hd] at ha
      rw [edit_doc? hd] at hn
      split at hn
      · next hname =>
        rw [← Option.some.inj hn, (r.make_listeners d).1]
        exact h.listens a d ha (hname ▸ hd)
      · exact h.listens a e ha hn

theorem drop (h : x.Wired) (name : String) : (x.dropDoc name).1.Wired := by
  have hdoc : ∀ n e, (x.dropDoc name).1.doc? n = some e → x.doc? n = some e := by
    intro n e hn
    have hlookup : (x.docs.filter (·.1 != name)).lookup n = some e := hn
    rw [lookup_filter_ne] at hlookup
    split at hlookup
    · cases hlookup
    · exact hlookup
  exact ⟨h.sound, fun n e hn => h.docs n e (hdoc n e hn),
    fun a e ha hn => h.listens a e ha (hdoc _ e hn)⟩

theorem attach (h : x.Wired) (name : String) (busy : Option String) :
    (x.attach name busy).1.Wired := by
  cases hd : x.doc? name with
  | none =>
    rw [Host.attach, hd]
    exact h
  | some d =>
    have hx : x.attach name busy = x.act (·.attach name d.value d.nextListener) busy := by
      rw [Host.attach, hd]
    rcases h.sound.attach_cases name d.value d.nextListener with
      ⟨hlive, hact⟩ | ⟨e, -, hact⟩ | ⟨reason, -, hact⟩
    · have hc : (x.attach name busy).1.client =
          {x.client with attachment := some ⟨name, d.nextListener⟩, phase := .attached} := by
        rw [hx, act_client, hact]
      have hdocs := attach_all (fun _ _ => Counted.thin) (fun _ => Counted.listen) h.docs hd busy hact
      refine ⟨hc ▸ (hlive.attached _).sound, hdocs, fun a e ha hn => ?_⟩
      rw [hc] at ha
      cases ha
      obtain ⟨own, hown, -, hlistens⟩ := attach_own hd busy hact
      exact Option.some.inj (hown.symm.trans hn) ▸ hlistens
    · rw [hx, act, hact]
      exact h
    · rw [hx, act, hact]
      refine h.settled (x.client.unlinked_lost rfl).sound (fun e he => ?_) (fun a ha => ?_) busy
      · rcases List.mem_append.1 he with he | he
        · exact x.client.unlistening_releases e he
        · exact List.mem_singleton.1 he ▸ trivial
      · cases ha

theorem perform (h : x.Wired) (s : Step) : (x.perform s).host.Wired := by
  have hr := perform_passage h.sound s
  have hother (hattach : ∀ name, s.deed ≠ .attach name) (hedit : ∀ name r, s.deed ≠ .edit name r)
      (hdrop : ∀ name, s.deed ≠ .drop name) : (x.perform s).host.Wired := by
    rw [perform_settles x hedit hdrop]
    have hkeeping := hr.keeping h.sound hattach
    split at hkeeping
    · obtain ⟨hnone, hthin⟩ := hkeeping
      refine h.settled (hr.sound h.sound) hthin (fun a ha => ?_) s.busy
      exact absurd (hnone.symm.trans ha) nofun
    · obtain ⟨hsame, hapart⟩ := hkeeping
      exact h.settled (hr.sound h.sound) (fun e he => (hapart e he).unlistening)
        (fun a ha => ⟨hsame.symm.trans ha, hapart⟩) s.busy
  obtain ⟨deed, busy⟩ := s
  cases deed with
  | attach name => exact h.attach name busy
  | edit name r => exact h.edit r
  | drop name => exact h.drop name
  | _ => exact hother nofun nofun nofun

/-- The client knows which document is attached. -/
theorem attached_perform (h : x.Wired) (s : Step) :
    (x.perform s).host.client.attachment.map Attachment.doc =
      x.heldAfter (x.client.attachment.map Attachment.doc) s := by
  obtain ⟨deed, busy⟩ := s
  unfold heldAfter
  by_cases hattach : ∃ name, deed = .attach name
  · obtain ⟨name, rfl⟩ := hattach
    cases hd : x.doc? name with
    | none =>
      have hnothing : x.perform ⟨.attach name, busy⟩ = ⟨x, .ok none, []⟩ := by
        show Outcome.of (x.attach name busy) uncalled = _
        rw [Host.attach, hd]
        rfl
      simp [attaches, hnothing, hd, Deed.letsGo, Deed.isLeaving]
    | some d =>
      have hx : (x.perform ⟨.attach name, busy⟩).reaction =
          (x.client.attach name d.value d.nextListener).as uncalled := by
        show (Outcome.of (x.attach name busy) uncalled).reaction = _
        rw [Host.attach, hd]
        exact reaction_act ..
      have hclient : (x.perform ⟨.attach name, busy⟩).host.client =
          (x.client.attach name d.value d.nextListener).client := congrArg Reaction.client hx
      have hresult : (x.perform ⟨.attach name, busy⟩).result =
          uncalled (x.client.attach name d.value d.nextListener).result :=
        congrArg Reaction.result hx
      rw [hclient, attaches, hresult]
      rcases h.sound.attach_cases name d.value d.nextListener with
        ⟨-, hact⟩ | ⟨e, he, hact⟩ | ⟨reason, -, hact⟩
      · rw [hact]
        simp [uncalled, Except.map, hd, Deed.letsGo, Deed.isLeaving]
      · rw [hact]
        simp [uncalled, Except.map, he, Deed.letsGo, Deed.isLeaving]
      · rw [hact]
        rfl
  · have hnone : x.attaches ⟨deed, busy⟩ = none := by
      unfold attaches
      split
      · next hname _ => exact absurd ⟨_, hname⟩ hattach
      · rfl
    have hkeeping := (perform_passage h.sound ⟨deed, busy⟩).keeping h.sound fun name hname =>
      hattach ⟨name, hname⟩
    rw [hnone, Option.none_or]
    change if Deed.letsGo deed (x.perform ⟨deed, busy⟩).result then _ else _ at hkeeping
    split at hkeeping
    · next hgo => rw [if_pos hgo]; exact congrArg (Option.map Attachment.doc) hkeeping.1
    · next hgo => rw [if_neg hgo]; exact congrArg (Option.map Attachment.doc) hkeeping.1

/-- A host keeps the wiring all its life, and the client knows which document is attached. -/
theorem run (h : x.Wired) (steps : List Step) : (x.run steps).Wired ∧
    (x.run steps).client.attachment.map Attachment.doc =
      x.held (x.client.attachment.map Attachment.doc) steps := by
  induction steps generalizing x with
  | nil => exact ⟨h, rfl⟩
  | cons s steps ih =>
    obtain ⟨hwired, hheld⟩ := ih (h.perform s)
    refine ⟨hwired, hheld.trans ?_⟩
    rw [h.attached_perform s]
    rfl

/-- The changes of an edit go to the worker if the document is the one attached. -/
theorem edit_effects (h : x.Wired) (hd : x.doc? name = some d) (r : Revision) :
    (x.edit name (r.make ·)).2.2 =
      if x.client.attachment.map Attachment.doc = some name ∧ x.client.hasWorker = true then
        (r.make d).deltas.map fun delta => .post (.change delta)
      else [] := by
  rw [Host.edit_effects hd (h.docs name d hd).nodup]
  refine if_congr ⟨fun ⟨hworker, _, _, ha⟩ => ⟨by rw [ha]; rfl, hworker⟩, ?_⟩ rfl rfl
  rintro ⟨hheld, hworker⟩
  obtain ⟨a, ha, hname⟩ := Option.map_eq_some_iff.1 hheld
  subst hname
  exact ⟨hworker, a.listener, h.listens a d ha hd, ha⟩

end Wired

theorem fresh_wired (config : Config) (docs : List (String × List Char)) :
    (fresh config docs).Wired := by
  refine ⟨.ofConfig config, fun name d hd => ?_, nofun⟩
  obtain ⟨p, -, rfl⟩ := mem_of_lookup_ofText hd
  exact .ofText p.2

/-- **Every change is forwarded once, and only while its document is attached.** Whatever has happened
to a host: the client is attached while a document is held, which is the one attached last unless it
has been given up since or the client has failed; and when a document is edited, each of its changes
is sent to the worker in one message if the document is the one held and the worker holds its end of
the link, and otherwise nothing is sent. In particular no edit sends anything once the document or the
client has been given up or the client has failed, until a document is attached again. -/
theorem edits_forwarded (config : Config) (docs : List (String × List Char)) (steps : List Step) :
    let h := (fresh config docs).run steps
    let held := (fresh config docs).held none steps
    (h.client.phase = .attached ↔ held.isSome) ∧
      (∀ name d r busy, h.doc? name = some d →
        (h.perform ⟨.edit name r, busy⟩).effects =
          if held = some name ∧ h.client.hasWorker = true then
            (r.make d).deltas.map fun delta => .post (.change delta)
          else []) ∧
      (∀ s, s.deed.letsGo (h.perform s).result = true →
        (h.perform s).host.client.phase ≠ .attached) ∧
      (h.client.phase ≠ .attached → ∀ name r busy, (h.perform ⟨.edit name r, busy⟩).effects = []) := by
  intro h held
  obtain ⟨hwired, hheld⟩ := (fresh_wired config docs).run steps
  change h.client.attachment.map Attachment.doc = held at hheld
  have hphase : h.client.phase = .attached ↔ held.isSome := by
    rw [← hheld, Option.isSome_map]
    exact hwired.sound.attachment.symm
  have hedit : ∀ name d r busy, h.doc? name = some d →
      (h.perform ⟨.edit name r, busy⟩).effects =
        if held = some name ∧ h.client.hasWorker = true then
          (r.make d).deltas.map fun delta => .post (.change delta)
        else [] := by
    intro name d r busy hd
    rw [← hheld]
    exact hwired.edit_effects hd r
  refine ⟨hphase, hedit, fun s hgo hattached => ?_, fun hnot name r busy => ?_⟩
  · have hnone := hwired.attached_perform s
    rw [heldAfter, if_pos hgo, Option.map_eq_none_iff] at hnone
    have hsome := (hwired.perform s).sound.attachment.2 hattached
    rw [hnone] at hsome
    cases hsome
  · cases hd : h.doc? name with
    | none =>
      show (h.edit name (r.make ·)).2.2 = []
      rw [Host.edit, hd]
    | some d =>
      rw [hedit name d r busy hd, if_neg fun hc => hnot (hphase.2 ?_)]
      rw [hc.1]
      rfl

/-- A document is given up while it is being read and attached again, so it has two listeners. -/
def attachedAgain : List Step :=
  [{deed := .connect ⟨[], true⟩}, {deed := .attach "notes"},
    {deed := .detach, busy := some "notes"}, {deed := .attach "notes"}]

theorem edits_forwarded_attachedAgain :
    let h := (fresh .default [("notes", ['x'])]).run attachedAgain
    h.doc? "notes" = some ⟨[['x']], [0, 1], 2⟩ ∧
      (h.perform ⟨.edit "notes" (.insert ⟨0, 1⟩ ['y']), none⟩).effects =
        [.post (.change ⟨.insert, ⟨⟨0, 1⟩, ⟨0, 2⟩⟩, [['y']]⟩)] := by
  intro h
  obtain ⟨-, hedit, -⟩ := edits_forwarded .default [("notes", ['x'])] attachedAgain
  have hdoc : h.doc? "notes" = some ⟨[['x']], [0, 1], 2⟩ := by decide +kernel
  refine ⟨hdoc, (hedit "notes" _ (.insert ⟨0, 1⟩ ['y']) none hdoc).trans ?_⟩
  rw [if_pos (by decide +kernel)]
  have hdeltas : (Revision.make ⟨[['x']], [0, 1], 2⟩ (.insert ⟨0, 1⟩ ['y'])).deltas =
      [⟨.insert, ⟨⟨0, 1⟩, ⟨0, 2⟩⟩, [['y']]⟩] := by decide +kernel
  rw [hdeltas]
  rfl

end Host

end CodeEditing.Worker
