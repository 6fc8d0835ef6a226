import CodeEditing.Lexing.RuleTable
import Mathlib.Data.List.Forall2

/-! What a built rule table is made of.

`TableDraft.build_eq_ok` says that a table that has been built has the states of the draft, `start`
in front, each with the rules of its draft in their order, and `RuleDraft.compile_eq_ok` what a rule
has to do with its draft. Hence a built table is closed (`RuleTable.Closed`): it has a state to start
in, and every rule leads to a state of the table. -/
namespace CodeEditing.Lexing

/-- The state a draft's rule leads to, among names of states. -/
def RuleDraft.Leads (names : List String) (d : RuleDraft) (next : Option StateId) : Prop :=
  match d.next with
  | none => next = none
  | some target => ∃ i, names.findIdx? (· == target) = some i ∧ next = some ⟨i⟩

/-- What a compiled rule has to do with its draft. -/
structure RuleDraft.Compiled (regex? : List Char → Option Regex) (names : List String)
    (d : RuleDraft) (r : Rule) : Prop where
  source : r.source = d.pattern
  regex : d.regex? regex? = some r.regex
  takesSome : r.regex.occursIn [] = false
  token : r.token = d.token
  groups : ∀ kinds, d.token = .groups kinds → kinds.length = r.regex.groupCount
  merge : r.merge = d.merge
  leads : d.Leads names r.next

section
variable {regex? : List Char → Option Regex} {names : List String}

theorem RuleDraft.compile_eq_ok {state : String} {index : Nat} {d : RuleDraft} {r : Rule}
    (h : d.compile regex? names state index = .ok r) : d.Compiled regex? names r := by
  unfold RuleDraft.compile at h
  split at h
  · simp at h
  · next regex hm =>
    split at h
    · simp at h
    · next hempty =>
      have hsome : regex.occursIn [] = false := by simpa using hempty
      extract_lets misfit at h
      cases hfit : misfit with
      | some kinds => simp [hfit] at h
      | none =>
        have hgroups : ∀ kinds, d.token = .groups kinds → kinds.length = regex.groupCount := by
          intro kinds hk
          simp only [misfit, hk] at hfit
          simpa using hfit
        simp only [hfit] at h
        split at h
        · next hn =>
          obtain rfl := Except.ok.inj h
          exact ⟨rfl, hm, hsome, rfl, hgroups, rfl, by rw [Leads, hn]⟩
        · next target hn =>
          split at h
          · simp at h
          · next i hi =>
            obtain rfl := Except.ok.inj h
            exact ⟨rfl, hm, hsome, rfl, hgroups, rfl, by rw [Leads, hn]; exact ⟨i, hi, rfl⟩⟩

theorem compileRules_eq_ok {state : String} {index : Nat} {ds : List RuleDraft} {rs : List Rule}
    (h : compileRules regex? names state index ds = .ok rs) :
    List.Forall₂ (RuleDraft.Compiled regex? names) ds rs := by
  induction ds generalizing index rs with
  | nil =>
    obtain rfl := Except.ok.inj h
    exact .nil
  | cons d ds ih =>
    rw [compileRules] at h
    split at h
    · simp at h
    · next r hr =>
      split at h
      · simp at h
      · next more hmore =>
        obtain rfl := Except.ok.inj h
        exact .cons (RuleDraft.compile_eq_ok hr) (ih hmore)

/-- What stands on the right of a relation of lists has something it is related to on the left. -/
theorem exists_related {α β : Type} {R : α → β → Prop} {as : List α} {bs : List β}
    (h : List.Forall₂ R as bs) {b : β} (hb : b ∈ bs) : ∃ a ∈ as, R a b := by
  obtain ⟨i, hi, rfl⟩ := List.getElem_of_mem hb
  have hi' : i < as.length := h.length_eq.symm ▸ hi
  exact ⟨as[i], List.getElem_mem hi', (List.forall₂_iff_get.1 h).2 i hi' hi⟩

theorem exists_compiled {ds : List RuleDraft} {rs : List Rule}
    (h : List.Forall₂ (RuleDraft.Compiled regex? names) ds rs) {d : RuleDraft} (hd : d ∈ ds) :
    ∃ r ∈ rs, d.Compiled regex? names r :=
  exists_related (R := flip (RuleDraft.Compiled regex? names)) (List.Forall₂.flip h) hd

/-- What a compiled state has to do with its draft. -/
structure StateDraft.Compiled (regex? : List Char → Option Regex) (names : List String)
    (d : StateDraft) (st : LexState) : Prop where
  name : st.name = d.name
  rules : List.Forall₂ (RuleDraft.Compiled regex? names) d.rules st.rules
  defaultKind : st.defaultKind = d.defaultKind.getD .text

theorem compileStates_eq_ok {ds : List StateDraft} {sts : List LexState}
    (h : compileStates regex? names ds = .ok sts) :
    List.Forall₂ (StateDraft.Compiled regex? names) ds sts := by
  induction ds generalizing sts with
  | nil =>
    obtain rfl := Except.ok.inj h
    exact .nil
  | cons d ds ih =>
    rw [compileStates] at h
    split at h
    · simp at h
    · next rules hr =>
      split at h
      · simp at h
      · next more hmore =>
        obtain rfl := Except.ok.inj h
        exact .cons ⟨rfl, compileRules_eq_ok hr, rfl⟩ (ih hmore)

/-- A built table has the states of its draft, `start` in front. -/
theorem TableDraft.build_eq_ok {d : TableDraft} {t : RuleTable} (h : d.build regex? = .ok t) :
    ∃ states, d.ordered = some states ∧ states.length ≤ maxStates ∧
      List.Forall₂ (StateDraft.Compiled regex? (states.map (·.name))) states t.states := by
  unfold TableDraft.build at h
  split at h
  · simp at h
  · next states ho =>
    split at h
    · simp at h
    · next hl =>
      split at h
      · simp at h
      · next compiled hc =>
        obtain rfl := Except.ok.inj h
        exact ⟨states, ho, Nat.le_of_not_lt hl, compileStates_eq_ok hc⟩

end

/-! ### Closed tables -/

/-- There is a state to start in, and every rule leads to a state of the table. -/
structure RuleTable.Closed (t : RuleTable) : Prop where
  start : 0 < t.size
  leads : ∀ st ∈ t.states, ∀ r ∈ st.rules, ∀ next ∈ r.next, next.index < t.size

theorem RuleTable.Closed.state?_isSome {t : RuleTable} {id : StateId} (h : id.index < t.size) :
    ∃ st, t.state? id = some st := ⟨t.states[id.index], List.getElem?_eq_getElem h⟩

theorem RuleDraft.Leads.lt {names : List String} {d : RuleDraft} {next : Option StateId}
    (h : d.Leads names next) : ∀ id ∈ next, id.index < names.length := by
  intro id hid
  unfold RuleDraft.Leads at h
  split at h
  · simp [h] at hid
  · obtain ⟨i, hi, rfl⟩ := h
    obtain rfl := Option.some.inj hid
    exact (List.findIdx?_eq_some_iff_getElem.1 hi).1

/-- A built table is closed, whatever has read its patterns. -/
theorem TableDraft.build_closed {regex? : List Char → Option Regex} {d : TableDraft}
    {t : RuleTable} (h : d.build regex? = .ok t) : t.Closed := by
  obtain ⟨states, ho, -, hs⟩ := build_eq_ok h
  have hsize : t.size = states.length := hs.length_eq.symm
  constructor
  · rw [hsize]
    unfold ordered at ho
    split at ho
    · simp at ho
    · obtain rfl := Option.some.inj ho
      simp
  · intro st hst r hr next hnext
    obtain ⟨s, -, hcompiled⟩ := exists_related hs hst
    obtain ⟨d, -, hrule⟩ := exists_related hcompiled.rules hr
    have := hrule.leads.lt next hnext
    rwa [List.length_map, ← hsize] at this

end CodeEditing.Lexing
