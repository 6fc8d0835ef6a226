import CodeEditing.Proofs.Document.Edits

/-! Replaying changes.

A document tells of its changes, and another one that holds the same lines makes them again.
`Revision` lists the edits that can be asked for, and `Revision.stages` are the lines behind each change
one tells of. As long as no text has a carriage return, whoever makes the changes again goes through
the same lines (`Revision.replays`). -/
namespace CodeEditing.Document

/-! ### Lines passed through -/

/-- Making the changes one after the other leads lines through the given ones, one for each. -/
def Passes : List Line → List Delta → List (List Line) → Prop
  | _, [], [] => True
  | lines, delta :: deltas, next :: more =>
    (∀ e : TextDocument, e.lines = lines → (e.applyDelta delta).doc.lines = next) ∧
      Passes next deltas more
  | _, _, _ => False

/-- The lines behind all of the changes. -/
def endOf (lines : List Line) (stages : List (List Line)) : List Line := stages.getLastD lines

theorem endOf_append (lines : List Line) (a b : List (List Line)) :
    endOf lines (a ++ b) = endOf (endOf lines a) b := by
  cases b with
  | nil => simp [endOf]
  | cons x xs => simp [endOf, List.getLastD_eq_getLast?, List.getLast?_append]

theorem Passes.append {lines : List Line} {a b : List Delta} {s t : List (List Line)}
    (ha : Passes lines a s) (hb : Passes (endOf lines s) b t) :
    Passes lines (a ++ b) (s ++ t) := by
  induction a generalizing lines s with
  | nil => cases s with
    | nil => exact hb
    | cons x xs => exact ha.elim
  | cons δ a ih => cases s with
    | nil => exact ha.elim
    | cons x xs =>
      refine ⟨ha.1, ih ha.2 ?_⟩
      rw [endOf, List.getLastD_cons] at hb
      exact hb

theorem Passes.length {lines : List Line} {deltas : List Delta} {stages : List (List Line)}
    (h : Passes lines deltas stages) : deltas.length = stages.length := by
  induction deltas generalizing lines stages with
  | nil => cases stages with
    | nil => rfl
    | cons => exact h.elim
  | cons δ deltas ih => cases stages with
    | nil => exact h.elim
    | cons x xs => rw [List.length_cons, List.length_cons, ih h.2]

namespace Edit

/-- The lines behind each change of a primitive edit. -/
def stages (e : Edit) : List (List Line) := e.deltas.map fun _ => e.doc.lines

/-- Whoever makes the changes again goes through the same lines. -/
def Replays (lines : List Line) (e : Edit) : Prop :=
  Passes lines e.deltas e.stages ∧ endOf lines e.stages = e.doc.lines

theorem Replays.andThen {lines : List Line} {a b : Edit} (ha : a.Replays lines)
    (hb : b.Replays a.doc.lines) : Passes lines (a.deltas ++ b.deltas) (a.stages ++ b.stages) ∧
      endOf lines (a.stages ++ b.stages) = b.doc.lines := by
  obtain ⟨hpa, hea⟩ := ha
  rw [endOf_append, hea]
  exact ⟨hpa.append (hea ▸ hb.1), hb.2⟩

end Edit

namespace TextDocument
variable {d : TextDocument} {text : List Char}

theorem insert_replays (d : TextDocument) (p : Position) (h : '\r' ∉ text) :
    (d.insert p text).Replays d.lines := by
  unfold Edit.Replays Edit.stages
  rw [insert_deltas]
  by_cases ht : text = []
  · subst ht
    rw [insert_nil, if_pos rfl]
    exact ⟨trivial, rfl⟩
  · rw [if_neg ht]
    refine ⟨⟨?_, trivial⟩, rfl⟩
    intro e he
    show (e.insert (d.clamp p) (Text.joinLines (Text.splitLines text))).doc.lines = _
    rw [Text.joinLines_splitLines h, insert_lines_congr he, insert_clamp]

theorem remove_replays (d : TextDocument) (range : Range) : (d.remove range).Replays d.lines := by
  unfold Edit.Replays Edit.stages
  rw [remove_deltas]
  by_cases hr : (d.clampRange range).isEmpty
  · rw [remove_empty hr, if_pos hr]
    exact ⟨trivial, rfl⟩
  · rw [if_neg hr]
    refine ⟨⟨?_, trivial⟩, rfl⟩
    intro e he
    show (e.remove (d.clampRange range)).doc.lines = _
    rw [remove_lines_congr he, remove_clampRange]

end TextDocument

/-! ### Revisions -/

/-- An edit that is asked for. -/
inductive Revision where
  | insert (p : Position) (text : List Char)
  | remove (range : Range)
  | replace (range : Range) (text : List Char)
  | setValue (text : List Char)
  | applyDelta (delta : Delta)
  deriving Repr, DecidableEq

namespace Revision

def make (d : TextDocument) : Revision → Edit
  | insert p text => d.insert p text
  | remove range => d.remove range
  | replace range text => d.replace range text
  | setValue text => d.setValue text
  | applyDelta delta => d.applyDelta delta

/-- The texts that are put in. -/
def texts : Revision → List (List Char)
  | insert _ text | replace _ text | setValue text => [text]
  | applyDelta ⟨.insert, _, lines⟩ => lines
  | remove _ | applyDelta ⟨.remove, _, _⟩ => []

/-- No text that is put in has a carriage return. -/
def Plain (r : Revision) : Prop := ∀ text ∈ r.texts, '\r' ∉ text

instance (r : Revision) : Decidable r.Plain := inferInstanceAs (Decidable (∀ _ ∈ _, _))

/-- The lines behind each change that is told. -/
def stages (d : TextDocument) : Revision → List (List Line)
  | insert p text => (d.insert p text).stages
  | remove range => (d.remove range).stages
  | replace range text =>
    let removed := d.remove range
    removed.stages ++ (removed.doc.insert removed.position text).stages
  | setValue text =>
    let removed := d.remove (.ofPoints .origin d.endPosition)
    removed.stages ++ (removed.doc.insert .origin text).stages
  | applyDelta delta => (d.applyDelta delta).stages

variable {d : TextDocument} {r : Revision}

theorem plain_joinLines {range : Range} {lines : List Line}
    (h : (applyDelta ⟨.insert, range, lines⟩).Plain) : '\r' ∉ Text.joinLines lines := by
  intro hc
  rcases Text.mem_of_mem_joinWith hc with hc | hc
  · exact absurd hc (by decide)
  · obtain ⟨l, hl, hc⟩ := List.mem_flatten.1 hc
    exact h l hl hc

/-- **Changes are made again.** The changes an edit tells of lead the lines it started from through
the same stages to the same end. -/
theorem replays (d : TextDocument) (h : r.Plain) :
    Passes d.lines (r.make d).deltas (r.stages d) ∧
      endOf d.lines (r.stages d) = (r.make d).doc.lines := by
  cases r with
  | insert p text => exact d.insert_replays p (h text (List.mem_singleton.2 rfl))
  | remove range => exact d.remove_replays range
  | replace range text =>
    exact (d.remove_replays range).andThen
      (TextDocument.insert_replays _ _ (h text (List.mem_singleton.2 rfl)))
  | setValue text =>
    exact (d.remove_replays _).andThen
      (TextDocument.insert_replays _ _ (h text (List.mem_singleton.2 rfl)))
  | applyDelta delta =>
    obtain ⟨action, range, lines⟩ := delta
    cases action with
    | insert => exact d.insert_replays range.start (plain_joinLines h)
    | remove => exact d.remove_replays range

theorem make_clean (hd : Clean d.lines) (h : r.Plain) : Clean (r.make d).doc.lines := by
  cases r with
  | insert p text => exact TextDocument.insert_clean hd p (h text (List.mem_singleton.2 rfl))
  | remove range => exact TextDocument.remove_clean hd range
  | replace range text =>
    exact TextDocument.insert_clean (TextDocument.remove_clean hd range) _
      (h text (List.mem_singleton.2 rfl))
  | setValue text =>
    exact TextDocument.insert_clean (TextDocument.remove_clean hd _) _
      (h text (List.mem_singleton.2 rfl))
  | applyDelta delta =>
    obtain ⟨action, range, lines⟩ := delta
    cases action with
    | insert => exact TextDocument.insert_clean hd range.start (plain_joinLines h)
    | remove => exact TextDocument.remove_clean hd range

/-- An edit leaves those who listen alone. -/
theorem make_listeners (d : TextDocument) (r : Revision) :
    (r.make d).doc.listeners = d.listeners ∧ (r.make d).doc.nextListener = d.nextListener := by
  have hi : ∀ (d : TextDocument) p text, (d.insert p text).doc.listeners = d.listeners ∧
      (d.insert p text).doc.nextListener = d.nextListener := by
    intro d p text
    unfold TextDocument.insert
    dsimp only
    split <;> exact ⟨rfl, rfl⟩
  have hr : ∀ (d : TextDocument) range, (d.remove range).doc.listeners = d.listeners ∧
      (d.remove range).doc.nextListener = d.nextListener := by
    intro d range
    unfold TextDocument.remove
    dsimp only
    split <;> exact ⟨rfl, rfl⟩
  have hb : ∀ range p text, ((d.remove range).doc.insert p text).doc.listeners = d.listeners ∧
      ((d.remove range).doc.insert p text).doc.nextListener = d.nextListener := by
    intro range p text
    rw [(hi _ p text).1, (hi _ p text).2]
    exact hr d range
  cases r with
  | insert p text => exact hi d p text
  | remove range => exact hr d range
  | replace range text => exact hb range _ text
  | setValue text => exact hb _ _ text
  | applyDelta delta =>
    obtain ⟨action, range, lines⟩ := delta
    cases action with
    | insert => exact hi d _ _
    | remove => exact hr d range

end Revision

end CodeEditing.Document
