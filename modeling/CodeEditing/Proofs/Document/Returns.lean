import CodeEditing.Proofs.Document.FlatText

/-! Carriage returns and changes that are made again.

Lines are told as they stand in the document, and whoever makes the change again joins them and cuts
the text once more. That takes a carriage return off every line that still ends in one, and such a line
comes from a text with two of them right before a line feed or at its end (`Text.DoubleReturn`). These
texts are the only ones that do harm: a document that hears of all edits and makes them again keeps in
step throughout exactly if none of them is put in (`TextDocument.keeps_step_iff`). -/
namespace CodeEditing.Text

/-- Two carriage returns stand right before a line feed or at the very end. -/
def DoubleReturn (cs : List Char) : Prop :=
  ['\r', '\r', '\n'] <:+: cs ∨ ['\r', '\r'] <:+ cs

instance (cs : List Char) : Decidable (DoubleReturn cs) := inferInstanceAs (Decidable (_ ∨ _))

theorem dropReturn_concat (l : List Char) (c : Char) :
    dropReturn (l ++ [c]) = if c = '\r' then l else l ++ [c] := by
  induction l with
  | nil => by_cases hc : c = '\r' <;> simp [dropReturn, hc]
  | cons d ds ih =>
    rw [List.cons_append, dropReturn_cons fun _ => by simp, ih]
    split <;> rfl

theorem dropReturn_eq_self_iff {l : List Char} : dropReturn l = l ↔ l.getLast? ≠ some '\r' := by
  refine ⟨fun h hr => ?_, dropReturn_eq_self⟩
  obtain ⟨front, rfl⟩ := List.getLast?_eq_some_iff.1 hr
  rw [dropReturn_concat, if_pos rfl] at h
  simpa using congrArg List.length h

/-- A line still ends in a carriage return if its piece of the text ends in two. -/
theorem getLast?_dropReturn_eq {l : List Char} :
    (dropReturn l).getLast? = some '\r' ↔ ['\r', '\r'] <:+ l := by
  rcases List.eq_nil_or_concat l with rfl | ⟨front, c, rfl⟩
  · simp [dropReturn]
  · rw [List.concat_eq_append, dropReturn_concat]
    split
    · next hc =>
      subst hc
      rw [List.getLast?_eq_some_iff]
      constructor
      · rintro ⟨more, rfl⟩
        exact ⟨more, by simp⟩
      · rintro ⟨more, hmore⟩
        have hboth : more ++ ['\r'] ++ ['\r'] = front ++ ['\r'] := by
          rw [← hmore]
          simp
        exact ⟨more, List.append_cancel_right hboth.symm⟩
    · next hc =>
      rw [List.getLast?_concat]
      constructor
      · intro h
        exact absurd (Option.some.inj h) hc
      · rintro ⟨more, hmore⟩
        have hlast := congrArg List.getLast? hmore
        rw [List.getLast?_concat] at hlast
        simpa using hlast.symm

/-- The first piece of a text is one carriage return. -/
theorem head?_cutAt_eq_return {cs : List Char} :
    (cutAt '\n' cs).head? = some ['\r'] ↔ cs = ['\r'] ∨ ['\r', '\n'] <+: cs := by
  constructor
  · intro h
    obtain ⟨more, hmore⟩ := List.head?_eq_some_iff.1 h
    have hcs := joinLines_cutAt cs
    rw [hmore] at hcs
    cases more with
    | nil => exact .inl hcs.symm
    | cons m ms => exact .inr ⟨joinLines (m :: ms), hcs⟩
  · rintro (rfl | ⟨rest, rfl⟩)
    · rfl
    · exact congrArg List.head? (cutAt_append_cons (a := ['\r']) (by decide) rest)

theorem exists_cutAt_suffix_iff {cs : List Char} :
    (∃ piece ∈ cutAt '\n' cs, ['\r', '\r'] <:+ piece) ↔ DoubleReturn cs := by
  induction cs with
  | nil => simp [cutAt, DoubleReturn]
  | cons c cs ih =>
    have hstep : DoubleReturn (c :: cs) ↔
        (c = '\r' ∧ (cs = ['\r'] ∨ ['\r', '\n'] <+: cs)) ∨ DoubleReturn cs := by
      simp only [DoubleReturn, List.infix_cons_iff, List.suffix_cons_iff, List.cons_prefix_cons,
        List.cons.injEq]
      grind
    rw [hstep, ← ih, ← head?_cutAt_eq_return]
    cases hp : cutAt '\n' cs with
    | nil => exact absurd hp (cutAt_ne_nil _ _)
    | cons piece more =>
      by_cases hc : c = '\n'
      · subst hc
        simp [cutAt, hp]
      · simp only [cutAt, hp, if_neg hc, List.head?_cons, Option.some.injEq]
        simp only [List.mem_cons, exists_eq_or_imp, List.suffix_cons_iff, List.cons.injEq]
        grind

/-- Lines without line feeds are cut as they were joined, but lose a carriage return each. -/
theorem splitLines_joinLines_of_no_feed {lines : List (List Char)} (hne : lines ≠ [])
    (h : '\n' ∉ lines.flatten) : splitLines (joinLines lines) = lines.map dropReturn := by
  rw [splitLines, joinLines, cutAt_joinWith hne]
  exact fun l hl hc => h (List.mem_flatten.2 ⟨l, hl, hc⟩)

/-- The lines of a text are cut as they were joined if it has no two carriage returns at a line
end. -/
theorem splitLines_again_iff {cs : List Char} :
    splitLines (joinLines (splitLines cs)) = splitLines cs ↔ ¬DoubleReturn cs := by
  have hkept : (splitLines cs).map dropReturn = splitLines cs ↔
      ∀ l ∈ splitLines cs, dropReturn l = l := by
    have hmap := @List.map_inj_left _ _ (splitLines cs) dropReturn id
    rwa [List.map_id] at hmap
  rw [splitLines_joinLines_of_no_feed (splitLines_ne_nil cs) (no_feed_splitLines cs), hkept,
    ← exists_cutAt_suffix_iff]
  simp only [dropReturn_eq_self_iff, splitLines, List.mem_map, forall_exists_index, and_imp,
    forall_apply_eq_imp_iff₂, ne_eq, getLast?_dropReturn_eq, not_exists, not_and]

theorem joinLines_injective {a b : List (List Char)} (ha : a ≠ []) (hb : b ≠ [])
    (hfa : '\n' ∉ a.flatten) (hfb : '\n' ∉ b.flatten) (h : joinLines a = joinLines b) : a = b := by
  have hcut : ∀ ls : List (List Char), ls ≠ [] → '\n' ∉ ls.flatten → cutAt '\n' (joinLines ls) = ls :=
    fun ls hne hf => cutAt_joinWith hne fun l hl hc => hf (List.mem_flatten.2 ⟨l, hl, hc⟩)
  rw [← hcut a ha hfa, h, hcut b hb hfb]

end CodeEditing.Text

namespace CodeEditing.Document

namespace TextDocument
variable {d e : TextDocument}

/-! ### One edit made again -/

theorem applyDeltas_append (d : TextDocument) (a b : List Delta) :
    d.applyDeltas (a ++ b) = (d.applyDeltas a).applyDeltas b :=
  List.foldl_append

/-- Whoever holds the same lines and makes an insertion again gets the same lines, unless the text had
two carriage returns at a line end. -/
theorem insert_again_iff (h : d.lines ≠ []) (he : e.lines = d.lines) (p : Position)
    (text : List Char) :
    (e.applyDeltas (d.insert p text).deltas).lines = (d.insert p text).doc.lines ↔
      ¬Text.DoubleReturn text := by
  rw [← Text.splitLines_again_iff, insert_deltas]
  by_cases ht : text = []
  · subst ht
    rw [if_pos rfl, insert_nil]
    exact ⟨fun _ => rfl, fun _ => he⟩
  · obtain ⟨c, hc, hp⟩ := exists_cut_clamp h p
    have hagain : c.position = e.clamp (d.clamp p) := by rw [clamp_congr he, clamp_clamp, hp]
    rw [if_neg ht]
    show (e.insert (d.clamp p) (Text.joinLines (Text.splitLines text))).doc.lines = _ ↔ _
    rw [(insert_cut (hc.trans he.symm) hagain _).1, (insert_cut hc hp text).1]
    constructor
    · intro hlines
      have hjoin := congrArg Text.joinLines hlines
      rw [Cut.joinLines_lines, Cut.joinLines_lines, Cut.front_behind, Cut.front_behind,
        Cut.back_behind, Cut.back_behind] at hjoin
      refine Text.joinLines_injective (Text.splitLines_ne_nil _) (Text.splitLines_ne_nil _)
        (Text.no_feed_splitLines _) (Text.no_feed_splitLines _) ?_
      exact List.append_cancel_left (List.append_cancel_right hjoin)
    · intro hpieces
      rw [hpieces]

/-- A removal is made again by whoever holds the same lines. -/
theorem remove_again (he : e.lines = d.lines) (range : Range) :
    (e.applyDeltas (d.remove range).deltas).lines = (d.remove range).doc.lines := by
  rw [remove_deltas]
  by_cases hr : (d.clampRange range).isEmpty
  · rw [if_pos hr, remove_empty hr]
    exact he
  · rw [if_neg hr]
    show (e.remove (d.clampRange range)).doc.lines = _
    rw [remove_lines_congr he, remove_clampRange]

end TextDocument

namespace Revision
variable {d e : TextDocument}

/-- The texts that are put in, lines that are told joined to one. -/
def puts : Revision → List (List Char)
  | insert _ text | replace _ text | setValue text => [text]
  | applyDelta ⟨.insert, _, lines⟩ => [Text.joinLines lines]
  | remove _ | applyDelta ⟨.remove, _, _⟩ => []

theorem make_again_iff (h : d.lines ≠ []) (he : e.lines = d.lines) (r : Revision) :
    (e.applyDeltas (r.make d).deltas).lines = (r.make d).doc.lines ↔
      ∀ text ∈ r.puts, ¬Text.DoubleReturn text := by
  have hboth : ∀ range p text,
      (e.applyDeltas ((d.remove range).deltas ++ ((d.remove range).doc.insert p text).deltas)).lines =
        ((d.remove range).doc.insert p text).doc.lines ↔ ∀ t ∈ [text], ¬Text.DoubleReturn t := by
    intro range p text
    rw [TextDocument.applyDeltas_append, List.forall_mem_singleton]
    exact TextDocument.insert_again_iff (TextDocument.remove_lines_ne_nil h range)
      (TextDocument.remove_again he range) p text
  have hinsert : ∀ p text, (e.applyDeltas (d.insert p text).deltas).lines =
      (d.insert p text).doc.lines ↔ ∀ t ∈ [text], ¬Text.DoubleReturn t := by
    intro p text
    rw [List.forall_mem_singleton]
    exact TextDocument.insert_again_iff h he p text
  have hremove : ∀ range, (e.applyDeltas (d.remove range).deltas).lines =
      (d.remove range).doc.lines ↔ ∀ t ∈ ([] : List (List Char)), ¬Text.DoubleReturn t :=
    fun range => iff_of_true (TextDocument.remove_again he range) (List.forall_mem_nil _)
  cases r with
  | insert p text => exact hinsert p text
  | remove range => exact hremove range
  | replace range text => exact hboth range _ text
  | setValue text => exact hboth _ _ text
  | applyDelta delta =>
    obtain ⟨action, range, lines⟩ := delta
    cases action with
    | insert => exact hinsert _ _
    | remove => exact hremove range

end Revision

/-! ### Listening on -/

namespace TextDocument
variable {d e : TextDocument}

/-- A document after some edits. -/
def reviseAll (d : TextDocument) (rs : List Revision) : TextDocument :=
  rs.foldl (fun d r => (r.make d).doc) d

/-- What is told while edits are made, to whom it is told. -/
def toldOf (d : TextDocument) : List Revision → List (Nat × Delta)
  | [] => []
  | r :: rs => (r.make d).told ++ toldOf (r.make d).doc rs

/-- What one listener hears. -/
def heardBy (listener : Nat) (told : List (Nat × Delta)) : List Delta :=
  (told.filter (·.1 == listener)).map Prod.snd

theorem heardBy_append (listener : Nat) (a b : List (Nat × Delta)) :
    heardBy listener (a ++ b) = heardBy listener a ++ heardBy listener b := by
  rw [heardBy, List.filter_append, List.map_append]
  rfl

/-- A listener hears of every change once. -/
theorem heardBy_told {e : Edit} {listener : Nat} (hmem : listener ∈ e.doc.listeners)
    (hnodup : e.doc.listeners.Nodup) : heardBy listener e.told = e.deltas := by
  have hone : e.doc.listeners.filter (· == listener) = [listener] := by
    rw [List.filter_beq, hnodup.count, if_pos hmem]
    rfl
  rw [Edit.told]
  induction e.deltas with
  | nil => rfl
  | cons delta deltas ih =>
    rw [List.flatMap_cons, heardBy_append, ih, heardBy, List.filter_map]
    show (((e.doc.listeners.filter (· == listener)).map _).map _) ++ deltas = _
    rw [hone]
    rfl

/-- Those who hear of all edits keep in step throughout exactly if no text with two carriage returns at
a line end is put in. -/
theorem heardBy_keeps_step (h : d.WellFormed) {listener : Nat} (hmem : listener ∈ d.listeners)
    (he : e.lines = d.lines) (rs : List Revision) :
    (∀ done, done <+: rs →
      (e.applyDeltas (heardBy listener (d.toldOf done))).lines = (d.reviseAll done).lines) ↔
      ∀ r ∈ rs, ∀ text ∈ r.puts, ¬Text.DoubleReturn text := by
  induction rs generalizing d e with
  | nil => simp [List.prefix_nil, toldOf, reviseAll, heardBy, applyDeltas, he]
  | cons r rs ih =>
    have hwell := Revision.make_wellFormed h r
    have hlisteners := (Revision.make_listeners d r).1
    have hheard : ∀ done, heardBy listener (d.toldOf (r :: done)) =
        (r.make d).deltas ++ heardBy listener ((r.make d).doc.toldOf done) := by
      intro done
      rw [toldOf, heardBy_append, heardBy_told (hlisteners ▸ hmem) hwell.nodup]
    rw [List.forall_mem_cons, ← Revision.make_again_iff h.nonempty he r]
    constructor
    · intro hall
      have hfirst := hall [r] (by simp)
      rw [hheard] at hfirst
      have hstep : (e.applyDeltas (r.make d).deltas).lines = (r.make d).doc.lines := by
        simpa [toldOf, heardBy, reviseAll] using hfirst
      refine ⟨hstep, (ih hwell (hlisteners ▸ hmem) hstep).1 fun done hdone => ?_⟩
      rw [← applyDeltas_append, ← hheard]
      exact hall (r :: done) (List.cons_prefix_cons.2 ⟨rfl, hdone⟩)
    · rintro ⟨hstep, hrest⟩ done hdone
      rcases List.prefix_cons_iff.1 hdone with rfl | ⟨more, rfl, hmore⟩
      · exact he
      · rw [hheard, applyDeltas_append]
        exact (ih hwell (hlisteners ▸ hmem) hstep).2 hrest more hmore

/-- **Keeping in step.** Whatever has been done to a document when a listener comes, another document
with the same lines that makes every change the listener hears of has the same lines behind each of the
edits that follow, exactly if no text with two carriage returns right before a line feed or at its end
is put in. -/
theorem keeps_step_iff (start : List Char) (ops : List Operation) (rs : List Revision) :
    let d := ((ofText start).use ops).listen.1
    let listener := ((ofText start).use ops).listen.2
    let other : TextDocument := ⟨d.lines, [], 0⟩
    (∀ done, done <+: rs →
      (other.applyDeltas (heardBy listener (d.toldOf done))).lines = (d.reviseAll done).lines) ↔
      ∀ r ∈ rs, ∀ text ∈ r.puts, ¬Text.DoubleReturn text := by
  intro d listener other
  have hd : d.WellFormed := wellFormed_perform (wellFormed_use (wellFormed_ofText start) ops) .listen
  have hmem : listener ∈ d.listeners := List.mem_append_right _ (List.mem_singleton.2 rfl)
  have hother : other.lines = d.lines := rfl
  exact heardBy_keeps_step hd hmem hother rs

example : let (d, listener) := (ofText []).listen
    let rs := [.insert .origin "a\r\r\nb".toList]
    (d.reviseAll rs).lines = [['a', '\r'], ['b']] ∧
      (d.applyDeltas (heardBy listener (d.toldOf rs))).lines = [['a'], ['b']] := by decide

end TextDocument

end CodeEditing.Document
