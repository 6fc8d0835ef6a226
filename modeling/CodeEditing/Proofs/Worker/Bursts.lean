import CodeEditing.Proofs.Worker.Steps

/-! Bursts and what the linter tells.

A host does not know how the messages it sends fall into bursts, and it does not have to. Handling a
message has nothing to do with whether the copy has been looked at (`Follower.handle_withDirty`), and
what the linter sends then are notes and answers; its verdicts come from looking at the copy. So bursts
are the messages handled in one go, with a verdict behind each burst that revises the copy
(`Follower.burst_linter`), and two ways to cut messages into bursts differ in nothing but how many
verdicts come before the last one (`Follower.bursts_agree`). -/
namespace CodeEditing.Worker

open Document (Delta TextDocument)
open Json (Value)

/-- Whether the copy is revised by a message: it has a text to take over, or a change that can be
read. -/
def HostMessage.revises : HostMessage → Bool
  | init .. => false
  | command name _ => name = "setValue"
  | event name data => name = "change" && (Json.decodeValue Delta.record.decode data).isOk

/-- Whether a message tells how the document is. -/
def WorkerMessage.judges : WorkerMessage → Bool
  | event name _ => name = "error" || name = "ok"
  | _ => false

theorem judges_verdict (doc : TextDocument) :
    (verdict doc).judges = true ∧ (verdict doc).isAside = false := by
  unfold verdict
  split <;> exact ⟨rfl, rfl⟩

/-- What the linter tells behind a burst is no aside. -/
theorem filter_told (revised : Bool) (doc : TextDocument) :
    (if revised then [verdict doc] else []).filter WorkerMessage.isAside = [] ∧
      (if revised then [verdict doc] else []).filter WorkerMessage.judges =
        if revised then [verdict doc] else [] := by
  cases revised with
  | true => simp [judges_verdict]
  | false => exact ⟨rfl, rfl⟩

theorem not_judges_of_isAside {m : WorkerMessage} (h : m.isAside = true) : m.judges = false := by
  cases m with
  | event name data => cases h
  | _ => rfl

namespace Follower
variable {σ : Type}

/-! ### Handling messages -/

/-- Whether the copy has been looked at makes no difference to what a message does. -/
theorem handle_withDirty (a : Analysis σ) (w : Follower σ) (dirty : Bool) (m : HostMessage) :
    handle a {w with dirty} m = {w.handle a m with follower.dirty := dirty || m.revises} := by
  cases m with
  | init flag tlns module classname =>
    rw [HostMessage.revises, Bool.or_false]
    rfl
  | command name args =>
    by_cases hn : name = "setValue"
    · simp [handle, hn, HostMessage.revises, setValue, Turn.send]
    · rw [HostMessage.revises, decide_eq_false hn, Bool.or_false]
      simp only [handle, if_neg hn, command]
      split
      · split <;> rfl
      · rfl
  | event name data =>
    by_cases hn : name = "change"
    · simp only [handle, if_pos hn, change, HostMessage.revises, decide_eq_true hn, Bool.true_and]
      cases Json.decodeValue Delta.record.decode data with
      | ok delta => simp [Except.isOk, Except.toBool, Turn.send]
      | error e => simp [Except.isOk, Except.toBool, Turn.send]
    · rw [HostMessage.revises, decide_eq_false hn, Bool.false_and, Bool.or_false]
      simp only [handle, if_neg hn, Turn.send]

theorem handleAll_withDirty (a : Analysis σ) (w : Follower σ) (dirty : Bool)
    (ms : List HostMessage) : handleAll a {w with dirty} ms =
      {w.handleAll a ms with follower.dirty := dirty || ms.any HostMessage.revises} := by
  induction ms generalizing w dirty with
  | nil =>
    rw [List.any_nil, Bool.or_false]
    rfl
  | cons m ms ih =>
    rw [handleAll, handle_withDirty, Turn.andThen]
    dsimp only
    rw [ih, List.any_cons, ← Bool.or_assoc]
    rfl

theorem dirty_handleAll (a : Analysis σ) (w : Follower σ) (ms : List HostMessage) :
    (w.handleAll a ms).follower.dirty = (w.dirty || ms.any HostMessage.revises) :=
  congrArg (fun t => t.follower.dirty) (handleAll_withDirty a w w.dirty ms)

/-- A message that does not revise the copy leaves it as it is. -/
theorem handle_unrevised (a : Analysis σ) (w : Follower σ) {m : HostMessage}
    (h : m.revises = false) : (w.handle a m).follower.doc = w.doc := by
  cases m with
  | init => rfl
  | command name args => exact w.handle_quiet a h
  | event name data =>
    by_cases hn : name = "change"
    · simp only [handle, if_pos hn, change]
      cases hd : Json.decodeValue Delta.record.decode data with
      | ok delta => simp [HostMessage.revises, hn, hd, Except.isOk, Except.toBool] at h
      | error e => rfl
    · exact w.handle_quiet a (decide_eq_false hn)

theorem handleAll_unrevised (a : Analysis σ) (w : Follower σ) {ms : List HostMessage}
    (h : ms.any HostMessage.revises = false) : (w.handleAll a ms).follower.doc = w.doc := by
  induction ms generalizing w with
  | nil => rfl
  | cons m ms ih =>
    rw [List.any_cons, Bool.or_eq_false_iff] at h
    exact (ih _ h.2).trans (w.handle_unrevised a h.1)

theorem isAside_of_mem_handleAll {w : Follower Unit} {ms : List HostMessage} {k : WorkerMessage}
    (hk : k ∈ (w.handleAll linter ms).sent) : k.isAside = true := by
  induction ms generalizing w with
  | nil => exact absurd hk List.not_mem_nil
  | cons m ms ih => exact (List.mem_append.1 hk).elim isAside_of_mem_sent ih

/-! ### Bursts -/

theorem finish_linter (w : Follower Unit) : w.finish linter =
    ⟨{w with dirty := false}, if w.dirty then [verdict w.doc] else [], []⟩ := by
  obtain ⟨state, doc, dirty⟩ := w
  cases dirty <;> rfl

/-- A burst is its messages handled in one go, with a verdict on the copy if they revise it. -/
theorem burst_linter {w : Follower Unit} (hw : w.dirty = false) (ms : List HostMessage) :
    w.burst linter ms =
      ⟨{(w.handleAll linter ms).follower with dirty := false},
        (w.handleAll linter ms).sent ++
          if ms.any HostMessage.revises then [verdict (w.handleAll linter ms).follower.doc] else [],
        (w.handleAll linter ms).warnings⟩ := by
  have hdirty := dirty_handleAll linter w ms
  rw [hw, Bool.false_or] at hdirty
  rw [burst, Turn.andThen, finish_linter, hdirty, List.append_nil]

/-- Messages handled in bursts, and the same messages handled in one go: the verdicts that come in
between are all the difference. -/
structure InBursts (t u : Turn Unit) (revised : Bool) : Prop where
  follower : t.follower = {u.follower with dirty := false}
  asides : t.sent.filter WorkerMessage.isAside = u.sent
  warnings : t.warnings = u.warnings
  last : (t.sent.filter WorkerMessage.judges).getLast? =
    if revised then some (verdict u.follower.doc) else none

theorem filter_asides {sent : List WorkerMessage} (h : ∀ k ∈ sent, k.isAside = true) :
    sent.filter WorkerMessage.isAside = sent ∧ sent.filter WorkerMessage.judges = [] :=
  ⟨List.filter_eq_self.2 h, List.filter_eq_nil_iff.2 fun k hk => by
    rw [not_judges_of_isAside (h k hk)]
    decide⟩

/-- The verdicts of a burst: one if it revises the copy. -/
theorem judges_burst {w : Follower Unit} (hw : w.dirty = false) (ms : List HostMessage) :
    (w.burst linter ms).sent.filter WorkerMessage.judges =
      if ms.any HostMessage.revises then [verdict (w.burst linter ms).follower.doc] else [] := by
  have hasides : ∀ k ∈ (w.handleAll linter ms).sent, k.isAside = true :=
    fun k hk => isAside_of_mem_handleAll hk
  rw [burst_linter hw]
  dsimp only
  rw [List.filter_append, (filter_asides hasides).2, List.nil_append, (filter_told _ _).2]

theorem bursts_linter {w : Follower Unit} (hw : w.dirty = false) (xs : List (List HostMessage)) :
    InBursts (w.bursts linter xs) (w.handleAll linter xs.flatten)
      (xs.flatten.any HostMessage.revises) := by
  induction xs generalizing w with
  | nil =>
    refine ⟨?_, rfl, rfl, rfl⟩
    show w = {w with dirty := false}
    rw [← hw]
  | cons ms more ih =>
    have hfirst : ∀ k ∈ (w.handleAll linter ms).sent, k.isAside = true :=
      fun k hk => isAside_of_mem_handleAll hk
    rw [List.flatten_cons, handleAll_append, bursts, burst_linter hw, List.any_append]
    generalize w.handleAll linter ms = t at hfirst ⊢
    obtain ⟨hfollower, hasides, hwarnings, hlast⟩ := ih (w := {t.follower with dirty := false}) rfl
    rw [handleAll_withDirty] at hfollower hasides hwarnings hlast
    obtain ⟨hkept, hnone⟩ := filter_asides hfirst
    refine ⟨hfollower, ?_, congrArg (t.warnings ++ ·) hwarnings, ?_⟩
    · show (t.sent ++ _ ++ _).filter _ = _ ++ _
      rw [List.filter_append, List.filter_append, hasides, hkept, (filter_told _ _).1,
        List.append_nil]
    · show ((t.sent ++ _ ++ _).filter _).getLast? =
        if ms.any _ || more.flatten.any _ then
          some (verdict (t.follower.handleAll linter more.flatten).follower.doc)
        else none
      rw [List.filter_append, List.filter_append, hnone, List.nil_append, (filter_told _ _).2,
        List.getLast?_append, hlast]
      cases hmore : more.flatten.any HostMessage.revises with
      | true => simp
      | false =>
        -- the copy stays as the first burst has left it
        rw [handleAll_unrevised linter t.follower hmore, Bool.or_false]
        cases ms.any HostMessage.revises <;> rfl

/-- **Where bursts begin and end does not matter.** However messages are cut into bursts, a linter that
starts afresh ends with the same copy and sends the same notes and answers in the same order, and the
same warnings; a burst tells one verdict, on the copy behind it, if it revises the copy, and none
otherwise; and the last verdict is the one on the copy in the end. -/
theorem bursts_agree (xs ys : List (List HostMessage)) (h : xs.flatten = ys.flatten) :
    let t := linter.follower.bursts linter xs
    let u := linter.follower.bursts linter ys
    t.follower = u.follower ∧
      t.sent.filter WorkerMessage.isAside = u.sent.filter WorkerMessage.isAside ∧
      t.warnings = u.warnings ∧
      (∀ before ms behind, xs = before ++ ms :: behind →
        let w := (linter.follower.bursts linter before).follower
        (w.burst linter ms).sent.filter WorkerMessage.judges =
          if ms.any HostMessage.revises then [verdict (w.burst linter ms).follower.doc] else []) ∧
      (t.sent.filter WorkerMessage.judges).getLast? =
        (u.sent.filter WorkerMessage.judges).getLast? ∧
      (t.sent.filter WorkerMessage.judges).getLast? =
        if xs.flatten.any HostMessage.revises then some (verdict t.follower.doc) else none := by
  intro t u
  have ht : InBursts t _ _ := bursts_linter rfl xs
  have hu : InBursts u _ _ := bursts_linter rfl ys
  rw [← h] at hu
  refine ⟨ht.follower.trans hu.follower.symm, ht.asides.trans hu.asides.symm,
    ht.warnings.trans hu.warnings.symm, fun before ms behind _ => ?_, ht.last.trans hu.last.symm, ?_⟩
  · have hclean := congrArg dirty (bursts_linter (w := linter.follower) rfl before).follower
    exact judges_burst hclean ms
  · rw [ht.last, ht.follower]

/-- A bracket, a change that cannot be read, a call, and the partner of the bracket. -/
def bracketed : List HostMessage :=
  [.command "setValue" [.string "("], .event "change" .null, .call "lint" [] 1,
    .change ⟨.insert, ⟨⟨0, 1⟩, ⟨0, 2⟩⟩, [[')']]⟩]

theorem bursts_agree_bracketed :
    let t := linter.follower.bursts linter [bracketed.take 1, bracketed.drop 1]
    let u := linter.follower.bursts linter [bracketed]
    [bracketed.take 1, bracketed.drop 1].flatten = [bracketed].flatten ∧
      t.follower = u.follower ∧ u.follower.doc.lines = [['(', ')']] ∧
      t.sent.filter WorkerMessage.isAside = u.sent.filter WorkerMessage.isAside ∧
      (t.sent.filter WorkerMessage.judges).getLast? = some (verdict u.follower.doc) ∧
      (u.sent.filter WorkerMessage.judges).getLast? = some (verdict u.follower.doc) := by
  intro t u
  have hcut : [bracketed.take 1, bracketed.drop 1].flatten = [bracketed].flatten := rfl
  obtain ⟨hfollower, hasides, -, -, hsame, hlast⟩ := bursts_agree _ _ hcut
  have hrevised : bracketed.any HostMessage.revises = true := by decide +kernel
  rw [hcut, List.flatten_singleton, if_pos hrevised, hfollower] at hlast
  exact ⟨hcut, hfollower, by decide +kernel, hasides, hlast, hsame.symm.trans hlast⟩

end Follower

end CodeEditing.Worker
