import CodeEditing.Proofs.Document.Bounds
import CodeEditing.Proofs.Lint.Bounds
import CodeEditing.Proofs.Worker.Bursts

/-! The linter stays within bounds.

A worker edits its copy of the document and looks for faults in it. `Duty.perform?` is what it does for
a message, or behind a burst, in steps that can go wrong. The copy keeps a line and has no line feed in
one, whatever is handled (`Duty.wellFormed_perform`), so nothing goes wrong (`within_bounds`). A change
that cannot be read leaves the worker as it was. -/
namespace CodeEditing.Worker

open Document (Delta Operation TextDocument)
open Json (Value)

/-- What the worker that watches brackets does: it handles a message, or looks at its copy. -/
inductive Duty where
  | handle (m : HostMessage)
  | finish

namespace Duty

def perform (w : Follower Unit) : Duty → Turn Unit
  | handle m => w.handle linter m
  | finish => w.finish linter

end Duty

namespace Follower

/-- Does duties in turn. -/
def tend (w : Follower Unit) : List Duty → Turn Unit
  | [] => .send w []
  | duty :: more => (duty.perform w).andThen fun w => w.tend more

/-! ### Steps that can go wrong -/

def setValue? (w : Follower Unit) (args : List Value) : Option (Turn Unit) := do
  let edit ← w.doc.setValue? (textOf args)
  some (.send {w with doc := edit.doc, dirty := true}
    ((setValueCall? args).toList.map fun id => .call id .null))

def change? (w : Follower Unit) (data : Value) : Option (Turn Unit) :=
  match Json.decodeValue Delta.record.decode data with
  | .ok delta => do
    let edit ← w.doc.applyDelta? delta
    some (.send {w with doc := edit.doc, dirty := true} [])
  | .error e => some (.send w [.note s!"ignoring malformed change: {e.message []}"])

def lint? (w : Follower Unit) (name : String) (args : List Value) : Option (Turn Unit) :=
  match args.getLast?.bind Value.nat? with
  | none => some ⟨w, [], [s!"call {Text.quotedName name} arrived without a callback id"]⟩
  | some id => do
    let found ← Lint.checkBrackets? w.doc.lines
    some (.send w [.call id (found.elim .null payload)])

def handle? (w : Follower Unit) : HostMessage → Option (Turn Unit)
  | .init _ _ module classname =>
    some (.send w
      (if classname = linterName then []
      else [.note s!"{module}.{classname} is not available, running {linterName}"]))
  | .command name args =>
    if name = "setValue" then w.setValue? args
    else if name = "lint" then w.lint? name args
    else some (.send w [unknownCommand name])
  | .event name data => if name = "change" then w.change? data else some (.send w [])

def finish? (w : Follower Unit) : Option (Turn Unit) :=
  if w.dirty then do
    let found ← Lint.checkBrackets? w.doc.lines
    some (.send {w with dirty := false}
      [found.elim (.event "ok" .null) fun a => .event "error" (payload a)])
  else some (.send w [])

end Follower

def Duty.perform? (w : Follower Unit) : Duty → Option (Turn Unit)
  | handle m => w.handle? m
  | finish => w.finish?

def Follower.tend? (w : Follower Unit) : List Duty → Option (Turn Unit)
  | [] => some (.send w [])
  | duty :: more => do
    let t ← duty.perform? w
    let u ← t.follower.tend? more
    some ⟨u.follower, t.sent ++ u.sent, t.warnings ++ u.warnings⟩

/-! ### Nothing goes wrong -/

namespace Follower
variable {w : Follower Unit}

theorem setValue?_eq (h : w.doc.lines ≠ []) (args : List Value) :
    w.setValue? args = some (w.setValue args) := by
  rw [setValue?, TextDocument.setValue?_eq h]
  rfl

theorem change?_eq (h : w.doc.lines ≠ []) (data : Value) : w.change? data = some (w.change data) := by
  rw [change?, change]
  cases Json.decodeValue Delta.record.decode data with
  | ok delta =>
    dsimp only
    rw [TextDocument.applyDelta?_eq h]
    rfl
  | error e => rfl

theorem lint?_eq (w : Follower Unit) (args : List Value) :
    w.lint? "lint" args = some (w.command linter "lint" args) := by
  have hcall : linter.isCall "lint" = true := rfl
  rw [lint?, command, if_pos hcall]
  cases args.getLast?.bind Value.nat? with
  | none => rfl
  | some id =>
    have hanswer : linter.command w.state w.doc "lint" args.dropLast =
        (w.state, lintAnswer w.doc, []) := rfl
    simp only [Lint.checkBrackets?_eq, Option.bind_eq_bind, Option.bind_some, hanswer, lintAnswer]
    cases Lint.checkBrackets w.doc.lines <;> rfl

theorem handle?_eq (h : w.doc.lines ≠ []) (m : HostMessage) :
    w.handle? m = some (w.handle linter m) := by
  cases m with
  | init flag tlns module classname =>
    by_cases hn : classname = linterName
    · simp only [handle?, handle, linter, if_pos hn]
    · simp only [handle?, handle, linter, if_neg hn]
  | command name args =>
    rw [handle?, handle]
    split
    · exact setValue?_eq h args
    · split
      · next hn =>
        subst hn
        exact w.lint?_eq args
      · next hn =>
        have hcall : linter.isCall name = false := beq_false_of_ne hn
        have hanswer : linter.command w.state w.doc name args =
            (w.state, .null, [unknownCommand name]) := if_neg hn
        rw [command, hcall, hanswer]
        rfl
  | event name data =>
    rw [handle?, handle]
    split
    · exact change?_eq h data
    · rfl

theorem finish?_eq (w : Follower Unit) : w.finish? = some (w.finish linter) := by
  obtain ⟨state, doc, dirty⟩ := w
  rw [finish?, finish_linter, Lint.checkBrackets?_eq, verdict]
  cases dirty with
  | false => rfl
  | true => cases Lint.checkBrackets doc.lines <;> rfl

/-- A message that revises the copy makes an edit of it. -/
theorem exists_revision (a : Analysis σ) (w : Follower σ) {m : HostMessage} (hm : m.revises = true) :
    ∃ r : Document.Revision, (w.handle a m).follower.doc = (r.make w.doc).doc := by
  cases m with
  | init => cases hm
  | command name args =>
    obtain rfl := of_decide_eq_true hm
    exact ⟨.setValue (textOf args), rfl⟩
  | event name data =>
    rw [HostMessage.revises, Bool.and_eq_true, decide_eq_true_eq] at hm
    obtain ⟨rfl, hok⟩ := hm
    rw [handle, if_pos rfl, change]
    cases hd : Json.decodeValue Delta.record.decode data with
    | ok delta => exact ⟨.applyDelta delta, rfl⟩
    | error e => simp [hd, Except.isOk, Except.toBool] at hok

end Follower

namespace Duty
variable {w : Follower Unit}

theorem perform?_eq (h : w.doc.lines ≠ []) (duty : Duty) :
    duty.perform? w = some (duty.perform w) := by
  cases duty with
  | handle m => exact Follower.handle?_eq h m
  | finish => exact w.finish?_eq

/-- Whatever is handled, the copy stays well formed. -/
theorem wellFormed_perform (h : w.doc.WellFormed) (duty : Duty) :
    (duty.perform w).follower.doc.WellFormed := by
  cases duty with
  | finish =>
    rw [perform, Follower.finish_doc]
    exact h
  | handle m =>
    by_cases hm : m.revises
    · obtain ⟨r, hr⟩ := Follower.exists_revision linter w hm
      rw [perform, hr]
      exact Document.Revision.make_wellFormed h r
    · rw [perform, Follower.handle_unrevised linter w (Bool.eq_false_iff.2 hm)]
      exact h

end Duty

namespace Follower
variable {w : Follower Unit}

theorem tend?_eq (h : w.doc.WellFormed) (duties : List Duty) : w.tend? duties = some (w.tend duties) := by
  induction duties generalizing w with
  | nil => rfl
  | cons duty more ih =>
    rw [tend?, Duty.perform?_eq h.nonempty, Option.bind_eq_bind, Option.bind_some,
      ih (Duty.wellFormed_perform h duty)]
    rfl

theorem wellFormed_tend (h : w.doc.WellFormed) (duties : List Duty) :
    (w.tend duties).follower.doc.WellFormed := by
  induction duties generalizing w with
  | nil => exact h
  | cons duty more ih => exact ih (Duty.wellFormed_perform h duty)

/-- **Nothing goes wrong.** Whatever is done to a document, and whatever a worker that watches brackets
handles and wherever its bursts end: in steps that can go wrong none does, the document and the worker
come about as they are, and there is always a line, and no line feed in one. A change that cannot be read
is noted and leaves the worker as it was. -/
theorem within_bounds (start : List Char) (ops : List Operation) (duties : List Duty) :
    let d := (TextDocument.ofText start).use ops
    let t := linter.follower.tend duties
    (TextDocument.ofText start).use? ops = some d ∧
      (d.lines ≠ [] ∧ ∀ line ∈ d.lines, '\n' ∉ line) ∧
      (∀ p, d.clamp? p = some (d.clamp p) ∧
        Document.findPartner? d.lines p = some (Document.findPartner d.lines p)) ∧
      linter.follower.tend? duties = some t ∧
      (t.follower.doc.lines ≠ [] ∧ ∀ line ∈ t.follower.doc.lines, '\n' ∉ line) ∧
      ∀ data problem, Json.decodeValue Delta.record.decode data = .error problem →
        t.follower.handle linter (.event "change" data) =
          ⟨t.follower, [.note s!"ignoring malformed change: {problem.message []}"], []⟩ := by
  intro d t
  have hd : d.WellFormed := Document.TextDocument.wellFormed_use (TextDocument.wellFormed_ofText start) ops
  have ht : t.follower.doc.WellFormed := wellFormed_tend (TextDocument.wellFormed_ofText []) duties
  have feeds {lines : List Document.Line} (h : '\n' ∉ lines.flatten) : ∀ line ∈ lines, '\n' ∉ line :=
    fun line hline hc => h (List.mem_flatten_of_mem hline hc)
  refine ⟨TextDocument.use?_eq (TextDocument.wellFormed_ofText start) ops,
    ⟨hd.nonempty, feeds hd.no_feed⟩, fun p => ⟨TextDocument.clamp?_eq hd.nonempty p, ?_⟩,
    tend?_eq (TextDocument.wellFormed_ofText []) duties, ⟨ht.nonempty, feeds ht.no_feed⟩, ?_⟩
  · exact Document.findPartner?_eq d.lines p
  · intro data problem hproblem
    simp only [handle, if_true, change, hproblem, Turn.send]

end Follower

end CodeEditing.Worker
