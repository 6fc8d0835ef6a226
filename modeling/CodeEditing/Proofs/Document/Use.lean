import CodeEditing.Proofs.Document.Replay

/-! Documents in use.

A document begins with a text; then it is edited, and listeners come and go (`Operation`). Whatever is
done to it, it has a line, no line has a line feed in it, and each listener is listed once, under a
number that no other one gets (`WellFormed`, `wellFormed_use`). Carriage returns are not kept out:
a line may have them anywhere. -/
namespace CodeEditing.Text

theorem mem_of_mem_dropReturn {c : Char} {l : List Char} (h : c ∈ dropReturn l) : c ∈ l := by
  fun_induction dropReturn l with
  | case1 => exact h
  | case2 => exact absurd h List.not_mem_nil
  | case3 d ds _ ih => exact (List.mem_cons.1 h).elim (· ▸ List.mem_cons_self) (.tail d <| ih ·)

/-- No line of a text has a line feed. -/
theorem no_feed_splitLines (cs : List Char) : '\n' ∉ (splitLines cs).flatten := by
  intro h
  obtain ⟨l, hl, hc⟩ := List.mem_flatten.1 h
  obtain ⟨piece, hpiece, rfl⟩ := List.mem_map.1 hl
  exact not_mem_of_mem_cutAt hpiece (mem_of_mem_dropReturn hc)

end CodeEditing.Text

namespace CodeEditing.Document

namespace TextDocument

/-- What holds of a document whatever is done to it. -/
structure WellFormed (d : TextDocument) : Prop where
  nonempty : d.lines ≠ []
  no_feed : '\n' ∉ d.lines.flatten
  nodup : d.listeners.Nodup
  below : ∀ l ∈ d.listeners, l < d.nextListener

theorem wellFormed_ofText (text : List Char) : (ofText text).WellFormed where
  nonempty := Text.splitLines_ne_nil text
  no_feed := Text.no_feed_splitLines text
  nodup := List.nodup_nil
  below _ h := absurd h List.not_mem_nil

variable {d : TextDocument}

/-! ### Edits -/

theorem insert_lines_ne_nil (h : d.lines ≠ []) (p : Position) (text : List Char) :
    (d.insert p text).doc.lines ≠ [] := by
  unfold insert
  dsimp only
  split
  · exact h
  · simp [weave_ne_nil]

theorem remove_lines_ne_nil (h : d.lines ≠ []) (range : Range) :
    (d.remove range).doc.lines ≠ [] := by
  unfold remove
  dsimp only
  split
  · exact h
  · simp

end TextDocument

namespace Revision
variable {d : TextDocument}

/-- What putting in and taking out both keep, every edit keeps. -/
theorem make_induction {P : TextDocument → Prop}
    (insert : ∀ d p text, P d → P (TextDocument.insert d p text).doc)
    (remove : ∀ d range, P d → P (TextDocument.remove d range).doc) (hd : P d) (r : Revision) :
    P (r.make d).doc := by
  cases r with
  | insert p text => exact insert d p text hd
  | remove range => exact remove d range hd
  | replace range text => exact insert _ _ text (remove d range hd)
  | setValue text => exact insert _ _ text (remove d _ hd)
  | applyDelta delta =>
    obtain ⟨action, range, lines⟩ := delta
    cases action with
    | insert => exact insert d _ _ hd
    | remove => exact remove d range hd

theorem make_lines_ne_nil (h : d.lines ≠ []) (r : Revision) : (r.make d).doc.lines ≠ [] :=
  make_induction (P := fun d => d.lines ≠ []) (fun _ p text h => TextDocument.insert_lines_ne_nil h p text)
    (fun _ range h => TextDocument.remove_lines_ne_nil h range) h r

theorem make_no_feed (h : '\n' ∉ d.lines.flatten) (r : Revision) :
    '\n' ∉ (r.make d).doc.lines.flatten :=
  make_induction (P := fun d => '\n' ∉ d.lines.flatten)
    (fun _ _ text h hc => (TextDocument.mem_insert_lines hc).elim h (Text.no_feed_splitLines text))
    (fun _ _ h hc => h (TextDocument.mem_remove_lines hc)) h r

theorem make_wellFormed (h : d.WellFormed) (r : Revision) : (r.make d).doc.WellFormed where
  nonempty := make_lines_ne_nil h.nonempty r
  no_feed := make_no_feed h.no_feed r
  nodup := (make_listeners d r).1 ▸ h.nodup
  below := by
    rw [(make_listeners d r).1, (make_listeners d r).2]
    exact h.below

end Revision

/-! ### Operations -/

/-- What is done to a document: it is edited, or a listener comes or goes. -/
inductive Operation where
  | revise (r : Revision)
  | listen
  | unlisten (listener : Nat)
  deriving Repr, DecidableEq

def Operation.perform (d : TextDocument) : Operation → TextDocument
  | revise r => (r.make d).doc
  | listen => d.listen.1
  | unlisten listener => (d.unlisten listener).1

namespace TextDocument
variable {d : TextDocument}

/-- A document after some operations. -/
def use (d : TextDocument) (ops : List Operation) : TextDocument := ops.foldl Operation.perform d

theorem wellFormed_perform (h : d.WellFormed) (op : Operation) : (op.perform d).WellFormed := by
  cases op with
  | revise r => exact Revision.make_wellFormed h r
  | listen =>
    refine ⟨h.nonempty, h.no_feed, ?_, fun l hl => ?_⟩
    · refine List.nodup_append.2 ⟨h.nodup, List.pairwise_singleton _ _, fun l hl m hm hlm => ?_⟩
      exact Nat.lt_irrefl _ (List.mem_singleton.1 hm ▸ hlm ▸ h.below l hl)
    · rcases List.mem_append.1 hl with hl | hl
      · exact Nat.lt_succ_of_lt (h.below l hl)
      · exact List.mem_singleton.1 hl ▸ Nat.lt_succ_self _
  | unlisten listener =>
    exact ⟨h.nonempty, h.no_feed, h.nodup.filter _, fun l hl => h.below l (List.mem_filter.1 hl).1⟩

/-- Whatever is done to a document, it stays well formed. -/
theorem wellFormed_use (h : d.WellFormed) (ops : List Operation) : (d.use ops).WellFormed := by
  induction ops generalizing d with
  | nil => exact h
  | cons op ops ih => exact ih (wellFormed_perform h op)

end TextDocument

end CodeEditing.Document
