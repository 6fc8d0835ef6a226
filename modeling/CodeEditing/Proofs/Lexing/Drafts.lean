import CodeEditing.Proofs.Lexing.Build
import Mathlib.Data.List.Induction
import Mathlib.Data.List.Nodup

/-! What becomes of a draft, call by call.

A draft is made by calls, each of which adds to one state (`DraftCall`). The states of the draft are
those that were mentioned, in the order of their first mention, each with the rules of all its calls
and the kind that was set last (`TableDraft.states_made`). A rule compiles exactly when it is sound
(`RuleDraft.compile_isOk_iff`), and otherwise its first failing check is told
(`RuleDraft.compile_eq_error_iff`); lists of rules and of states hand on the first failure.
`TableDraft.build_made` puts this together: which calls make a table, what is in the table
(`RuleTable.Resolves`), and what is told when there is none. -/
namespace CodeEditing.Lexing

/-! ### Calls -/

/-- A call adds rules behind those of a state, or sets the kind of the characters they leave. -/
inductive DraftCall where
  | rule (state : String) (r : RuleDraft)
  | rules (state : String) (more : List RuleDraft)
  | defaultKind (state : String) (kind : Kind)

namespace DraftCall

/-- The state a call mentions. -/
def state : DraftCall → String
  | rule s _ | rules s _ | defaultKind s _ => s

/-- The rules a call adds. -/
def added : DraftCall → List RuleDraft
  | rule _ r => [r]
  | rules _ more => more
  | defaultKind _ _ => []

/-- The kind a call sets. -/
def kind? : DraftCall → Option Kind
  | defaultKind _ k => some k
  | _ => none

def perform (d : TableDraft) : DraftCall → TableDraft
  | rule s r => d.rule s r
  | rules s more => d.rules s more
  | defaultKind s k => d.defaultKind s k

/-- What a call does to the state it mentions. -/
def change (c : DraftCall) (s : StateDraft) : StateDraft :=
  {s with rules := s.rules ++ c.added, defaultKind := c.kind?.or s.defaultKind}

theorem perform_eq (d : TableDraft) (c : DraftCall) :
    c.perform d = ⟨TableDraft.alter c.state c.change d.states⟩ := by
  cases c with
  | rule s r => rfl
  | rules s more => rfl
  | defaultKind s k =>
    have hchange : (defaultKind s k).change = fun d => {d with defaultKind := some k} := by
      funext d
      simp [change, added, kind?]
    rw [hchange]
    rfl

end DraftCall

/-- The names in the order of their first mention. -/
def mentioned (calls : List DraftCall) : List String := (calls.map (·.state)).eraseDups

/-- The rules that are added to a state, in the order of the calls. -/
def rulesOf (calls : List DraftCall) (name : String) : List RuleDraft :=
  (calls.filter (·.state == name)).flatMap (·.added)

/-- The kind that is set last for a state. -/
def kindOf? (calls : List DraftCall) (name : String) : Option Kind :=
  ((calls.filter (·.state == name)).filterMap (·.kind?)).getLast?

def stateOf (calls : List DraftCall) (name : String) : StateDraft :=
  ⟨name, rulesOf calls name, kindOf? calls name⟩

/-- The draft that calls make. -/
def TableDraft.made (calls : List DraftCall) : TableDraft := calls.foldl DraftCall.perform {}

/-! ### The states of a draft -/

section
variable {calls : List DraftCall} {c : DraftCall} {name : String}

theorem mem_mentioned : name ∈ mentioned calls ↔ ∃ c ∈ calls, c.state = name := by
  rw [mentioned, List.mem_eraseDups, List.mem_map]

/-- A name that was mentioned before stays where it is, a new one comes last. -/
theorem mentioned_concat : mentioned (calls ++ [c]) =
    if c.state ∈ mentioned calls then mentioned calls else mentioned calls ++ [c.state] := by
  unfold mentioned
  rw [List.map_append, List.map_singleton, List.eraseDups_append]
  simp only [List.mem_eraseDups]
  split
  · next h =>
    have hnone : [c.state].removeAll (calls.map (·.state)) = [] := by
      rw [List.cons_removeAll, if_neg (by simpa using h), List.nil_removeAll]
    rw [hnone, List.eraseDups_nil, List.append_nil]
  · next h =>
    have hnew : [c.state].removeAll (calls.map (·.state)) = [c.state] := by
      rw [List.cons_removeAll, if_pos (by simpa using h), List.nil_removeAll]
    rw [hnew, List.eraseDups_cons, List.filter_nil, List.eraseDups_nil]

theorem nodup_mentioned (calls : List DraftCall) : (mentioned calls).Nodup := by
  induction calls using List.reverseRecOn with
  | nil => exact List.nodup_nil
  | append_singleton calls c ih =>
    rw [mentioned_concat]
    split
    · exact ih
    · next hnew =>
      refine List.nodup_append.2
        ⟨ih, List.nodup_cons.2 ⟨List.not_mem_nil, .nil⟩, fun a ha b hb he => hnew ?_⟩
      rwa [← List.mem_singleton.1 hb, ← he]

theorem stateOf_concat_same (calls : List DraftCall) (c : DraftCall) :
    stateOf (calls ++ [c]) c.state = c.change (stateOf calls c.state) := by
  unfold stateOf rulesOf kindOf? DraftCall.change
  cases hk : c.kind? <;> simp [List.filter_append, hk]

theorem stateOf_concat_other (calls : List DraftCall) (h : name ≠ c.state) :
    stateOf (calls ++ [c]) name = stateOf calls name := by
  have hc : [c].filter (·.state == name) = [] := by simp [Ne.symm h]
  unfold stateOf rulesOf kindOf?
  rw [List.filter_append, hc, List.append_nil]

/-- Nothing is known of a state that is not mentioned. -/
theorem stateOf_of_not_mentioned (h : name ∉ mentioned calls) : stateOf calls name = {name} := by
  have hnone : calls.filter (·.state == name) = [] := by
    refine List.filter_eq_nil_iff.2 fun c hc he => h (mem_mentioned.2 ⟨c, hc, ?_⟩)
    simpa using he
  simp [stateOf, rulesOf, kindOf?, hnone]

/-- A state of the name is changed in its place, and declared last when there is none. -/
theorem alter_map {names : List String} (hn : names.Nodup) {g : String → StateDraft}
    (hg : ∀ n, (g n).name = n) (f : StateDraft → StateDraft) (name : String) :
    TableDraft.alter name f (names.map g) =
      if name ∈ names then names.map fun n => if n = name then f (g n) else g n
      else names.map g ++ [f {name}] := by
  induction names with
  | nil => rfl
  | cons n ns ih =>
    obtain ⟨hnot, hns⟩ := List.nodup_cons.1 hn
    rw [List.map_cons, TableDraft.alter, hg]
    by_cases h : n = name
    · subst h
      have hsame : ns.map (fun m => if m = n then f (g m) else g m) = ns.map g := by
        refine List.map_congr_left fun m hm => if_neg ?_
        rintro rfl
        exact hnot hm
      simp [hsame]
    · rw [if_neg h, ih hns]
      have hne : name ≠ n := Ne.symm h
      by_cases hmem : name ∈ ns <;> simp [hmem, h, hne]

/-- The draft has the states that were mentioned. -/
theorem TableDraft.states_made (calls : List DraftCall) :
    (TableDraft.made calls).states = (mentioned calls).map (stateOf calls) := by
  induction calls using List.reverseRecOn with
  | nil => rfl
  | append_singleton calls c ih =>
    have hmade : TableDraft.made (calls ++ [c]) = c.perform (TableDraft.made calls) := by
      simp [TableDraft.made]
    rw [hmade, DraftCall.perform_eq, ih, alter_map (nodup_mentioned calls) (fun _ => rfl),
      mentioned_concat]
    split
    · refine List.map_congr_left fun n hn => ?_
      split
      · next h => rw [h, stateOf_concat_same]
      · next h => exact (stateOf_concat_other calls h).symm
    · next hnew =>
      rw [List.map_append, List.map_singleton, stateOf_concat_same,
        stateOf_of_not_mentioned hnew]
      refine congrArg (· ++ _) (List.map_congr_left fun n hn => ?_)
      refine (stateOf_concat_other calls ?_).symm
      rintro rfl
      exact hnew hn

/-- The names of the states of a table: `start`, then all others that were mentioned. -/
def tableNames (calls : List DraftCall) : List String :=
  startName :: (mentioned calls).filter (· != startName)

theorem nodup_tableNames (calls : List DraftCall) : (tableNames calls).Nodup :=
  List.nodup_cons.2 ⟨by simp, (nodup_mentioned calls).filter _⟩

theorem mem_tableNames (hstart : startName ∈ mentioned calls) :
    name ∈ tableNames calls ↔ name ∈ mentioned calls := by
  rw [tableNames, List.mem_cons, List.mem_filter, bne_iff_ne]
  constructor
  · rintro (rfl | ⟨h, -⟩)
    · exact hstart
    · exact h
  · intro h
    exact (em (name = startName)).imp id fun hne => ⟨h, hne⟩

/-- The states of a table are put in order when `start` was mentioned. -/
theorem TableDraft.ordered_made (calls : List DraftCall) : (TableDraft.made calls).ordered =
    if startName ∈ mentioned calls then some ((tableNames calls).map (stateOf calls))
    else none := by
  unfold TableDraft.ordered
  rw [TableDraft.states_made, List.find?_map, List.filter_map]
  have hname : ((·.name == startName) : StateDraft → Bool) ∘ stateOf calls = (· == startName) := rfl
  have hother : ((·.name != startName) : StateDraft → Bool) ∘ stateOf calls = (· != startName) :=
    rfl
  rw [hname, hother]
  split
  · next hfind =>
    rw [if_neg]
    intro hmem
    simpa using List.find?_eq_none.1 (Option.map_eq_none_iff.1 hfind) startName hmem
  · next s hfind =>
    obtain ⟨n, hn, rfl⟩ := Option.map_eq_some_iff.1 hfind
    have heq : n = startName := by simpa using List.find?_some hn
    rw [if_pos (heq ▸ List.mem_of_find?_eq_some hn), heq]
    rfl

end

/-! ### Rules that compile -/

/-- A rule that makes sense among states of the names: its pattern is readable and does not match
the empty text, it has as many groups as a group rule gives kinds, and the next state is declared.
-/
def RuleDraft.Sound (regex? : List Char → Option Regex) (names : List String) (d : RuleDraft) :
    Prop :=
  ∃ regex, d.regex? regex? = some regex ∧ regex.occursIn [] = false ∧
    (∀ kinds, d.token = .groups kinds → kinds.length = regex.groupCount) ∧
      ∀ target ∈ d.next, target ∈ names

/-- The first check that a rule fails, and what is told of it. -/
inductive RuleDraft.Fails (regex? : List Char → Option Regex) (names : List String)
    (state : String) (index : Nat) (d : RuleDraft) : TableFault → Prop
  | unreadable (read : d.regex? regex? = none) :
      Fails regex? names state index d (.invalidPattern state index d.pattern)
  | empty {regex : Regex} (read : d.regex? regex? = some regex)
      (takesNothing : regex.occursIn [] = true) :
      Fails regex? names state index d (.matchesEmpty state index d.pattern)
  | groups {regex : Regex} {kinds : List Kind} (read : d.regex? regex? = some regex)
      (takesSome : regex.occursIn [] = false) (token : d.token = .groups kinds)
      (misfit : kinds.length ≠ regex.groupCount) :
      Fails regex? names state index d (.groupMismatch state index kinds.length regex.groupCount)
  | target {regex : Regex} {target : String} (read : d.regex? regex? = some regex)
      (takesSome : regex.occursIn [] = false)
      (fits : ∀ kinds, d.token = .groups kinds → kinds.length = regex.groupCount)
      (next : d.next = some target) (undeclared : target ∉ names) :
      Fails regex? names state index d (.unknownState state index target)

section
variable {regex? : List Char → Option Regex} {names : List String} {state : String} {index : Nat}
  {d : RuleDraft} {f : TableFault}

theorem RuleDraft.Compiled.sound {r : Rule} (h : d.Compiled regex? names r) :
    d.Sound regex? names := by
  refine ⟨r.regex, h.regex, h.takesSome, h.groups, fun target ht => ?_⟩
  have hleads := h.leads
  rw [RuleDraft.Leads, Option.mem_def.1 ht] at hleads
  obtain ⟨i, hi, -⟩ := hleads
  obtain ⟨hlt, heq, -⟩ := List.findIdx?_eq_some_iff_getElem.1 hi
  exact eq_of_beq heq ▸ List.getElem_mem hlt

/-- A sound rule fails no check. -/
theorem RuleDraft.Fails.not_sound (h : d.Fails regex? names state index f) :
    ¬ d.Sound regex? names := by
  rintro ⟨regex, hread, hsome, hfits, hnext⟩
  cases h with
  | unreadable read => exact nomatch hread.symm.trans read
  | empty read nothing =>
    obtain rfl := Option.some.inj (hread.symm.trans read)
    exact Bool.false_ne_true (hsome.symm.trans nothing)
  | groups read _ token misfit =>
    obtain rfl := Option.some.inj (hread.symm.trans read)
    exact misfit (hfits _ token)
  | target _ _ _ next undeclared => exact undeclared (hnext _ next)

/-- A rule is compiled, or its first failing check is told. -/
theorem RuleDraft.compile_cases (regex? : List Char → Option Regex) (names : List String)
    (state : String) (index : Nat) (d : RuleDraft) :
    (∃ r, d.compile regex? names state index = .ok r) ∨
      ∃ f, d.compile regex? names state index = .error f ∧ d.Fails regex? names state index f := by
  unfold RuleDraft.compile
  split
  · next hread => exact .inr ⟨_, rfl, .unreadable hread⟩
  · next regex hread =>
    split
    · next hempty => exact .inr ⟨_, rfl, .empty hread hempty⟩
    · next hempty =>
      have hsome : regex.occursIn [] = false := by simpa using hempty
      extract_lets misfit
      cases hfit : misfit with
      | some n =>
        obtain ⟨kinds, htoken, hne, rfl⟩ : ∃ kinds, d.token = .groups kinds ∧
            kinds.length ≠ regex.groupCount ∧ kinds.length = n := by
          unfold misfit at hfit
          split at hfit
          · next kinds htoken =>
            obtain ⟨hne, hn⟩ := Option.ite_none_left_eq_some.1 hfit
            exact ⟨kinds, htoken, hne, Option.some.inj hn⟩
          · exact nomatch hfit
        exact .inr ⟨_, rfl, .groups hread hsome htoken hne⟩
      | none =>
        have hgroups : ∀ kinds, d.token = .groups kinds → kinds.length = regex.groupCount := by
          intro kinds hk
          simp only [misfit, hk] at hfit
          simpa using hfit
        dsimp only
        split
        · exact .inl ⟨_, rfl⟩
        · next target hnext =>
          split
          · next hmissing =>
            refine .inr ⟨_, rfl, .target hread hsome hgroups hnext fun hmem => ?_⟩
            have := List.findIdx?_eq_none_iff.1 hmissing target hmem
            simp at this
          · exact .inl ⟨_, rfl⟩

/-- A rule is compiled when it is sound. -/
theorem RuleDraft.compile_isOk_iff :
    (∃ r, d.compile regex? names state index = .ok r) ↔ d.Sound regex? names := by
  constructor
  · rintro ⟨r, hr⟩
    exact (RuleDraft.compile_eq_ok hr).sound
  · intro h
    exact (d.compile_cases regex? names state index).resolve_right fun ⟨_, _, hf⟩ => hf.not_sound h

/-- Of a rule that is not compiled the first failing check is told. -/
theorem RuleDraft.compile_eq_error_iff :
    d.compile regex? names state index = .error f ↔ d.Fails regex? names state index f := by
  rcases d.compile_cases regex? names state index with ⟨r, hr⟩ | ⟨g, hg, hfails⟩
  · have hsound := compile_isOk_iff.1 ⟨r, hr⟩
    exact iff_of_false (fun h => nomatch hr.symm.trans h) fun h => h.not_sound hsound
  · rw [hg, Except.error.injEq]
    constructor
    · rintro rfl
      exact hfails
    · intro h
      -- the checks exclude each other, and each tells one fault
      cases hfails with
      | unreadable read =>
        cases h with
        | unreadable => rfl
        | empty read' | groups read' | target read' => exact nomatch read.symm.trans read'
      | empty read nothing =>
        cases h with
        | unreadable read' => exact nomatch read'.symm.trans read
        | empty => rfl
        | groups read' some | target read' some =>
          obtain rfl := Option.some.inj (read.symm.trans read')
          exact nomatch some.symm.trans nothing
      | groups read some token misfit =>
        cases h with
        | unreadable read' => exact nomatch read'.symm.trans read
        | empty read' nothing =>
          obtain rfl := Option.some.inj (read.symm.trans read')
          exact nomatch some.symm.trans nothing
        | groups read' _ token' =>
          obtain rfl := Option.some.inj (read.symm.trans read')
          obtain rfl := TokenSpec.groups.inj (token.symm.trans token')
          rfl
        | target read' _ fits =>
          obtain rfl := Option.some.inj (read.symm.trans read')
          exact absurd (fits _ token) misfit
      | target read some fits next undeclared =>
        cases h with
        | unreadable read' => exact nomatch read'.symm.trans read
        | empty read' nothing =>
          obtain rfl := Option.some.inj (read.symm.trans read')
          exact nomatch some.symm.trans nothing
        | groups read' _ token misfit =>
          obtain rfl := Option.some.inj (read.symm.trans read')
          exact absurd (fits _ token) misfit
        | target _ _ _ next' =>
          obtain rfl := Option.some.inj (next.symm.trans next')
          rfl

end

/-! ### Lists of rules and of states -/

/-- The first member of a list that is not good is bad: `bad` is told its place in the list. -/
def FirstBad {α : Type} (good : α → Prop) (bad : Nat → α → Prop) (l : List α) : Prop :=
  ∃ before a after, l = before ++ a :: after ∧ (∀ b ∈ before, good b) ∧ bad before.length a

theorem firstBad_nil {α : Type} {good : α → Prop} {bad : Nat → α → Prop} :
    ¬ FirstBad good bad [] := by
  rintro ⟨before, a, after, h, -⟩
  cases before <;> cases h

theorem firstBad_cons {α : Type} {good : α → Prop} {bad : Nat → α → Prop} {a : α} {l : List α} :
    FirstBad good bad (a :: l) ↔ bad 0 a ∨ good a ∧ FirstBad good (fun i => bad (i + 1)) l := by
  constructor
  · rintro ⟨before, b, after, hsplit, hbefore, hb⟩
    cases before with
    | nil =>
      obtain ⟨rfl, rfl⟩ := List.cons.inj hsplit
      exact .inl hb
    | cons c before =>
      obtain ⟨rfl, rfl⟩ := List.cons.inj hsplit
      obtain ⟨hc, hmore⟩ := List.forall_mem_cons.1 hbefore
      exact .inr ⟨hc, before, b, after, rfl, hmore, hb⟩
  · rintro (h | ⟨ha, before, b, after, rfl, hbefore, hb⟩)
    · exact ⟨[], a, l, rfl, fun _ hc => absurd hc List.not_mem_nil, h⟩
    · exact ⟨a :: before, b, after, rfl, List.forall_mem_cons.2 ⟨ha, hbefore⟩, hb⟩

theorem firstBad_map {α β : Type} {good : β → Prop} {bad : Nat → β → Prop} {g : α → β}
    {l : List α} : FirstBad good bad (l.map g) ↔
      FirstBad (fun a => good (g a)) (fun i a => bad i (g a)) l := by
  induction l generalizing bad with
  | nil => exact iff_of_false firstBad_nil firstBad_nil
  | cons a l ih => rw [List.map_cons, firstBad_cons, firstBad_cons, ih]

section
variable {regex? : List Char → Option Regex} {names : List String} {state : String} {index : Nat}
  {f : TableFault}

theorem compileRules_isOk_iff {ds : List RuleDraft} :
    (∃ rs, compileRules regex? names state index ds = .ok rs) ↔
      ∀ d ∈ ds, d.Sound regex? names := by
  induction ds generalizing index with
  | nil => exact ⟨fun _ _ hd => absurd hd List.not_mem_nil, fun _ => ⟨[], rfl⟩⟩
  | cons d ds ih =>
    rw [List.forall_mem_cons, ← @ih (index + 1), ← RuleDraft.compile_isOk_iff]
    constructor
    · rintro ⟨rs, hrs⟩
      rw [compileRules] at hrs
      split at hrs
      · cases hrs
      · next r hr =>
        split at hrs
        · cases hrs
        · next more hmore => exact ⟨⟨r, hr⟩, more, hmore⟩
    · rintro ⟨⟨r, hr⟩, more, hmore⟩
      exact ⟨r :: more, by rw [compileRules, hr, hmore]⟩

/-- What is told of rules is the first failing check of the first bad one. -/
theorem compileRules_eq_error_iff {ds : List RuleDraft} :
    compileRules regex? names state index ds = .error f ↔
      FirstBad (RuleDraft.Sound regex? names)
        (fun i d => d.Fails regex? names state (index + i) f) ds := by
  induction ds generalizing index with
  | nil => exact iff_of_false (by simp [compileRules]) firstBad_nil
  | cons d ds ih =>
    rw [compileRules, firstBad_cons]
    rcases d.compile_cases regex? names state index with ⟨r, hr⟩ | ⟨g, hg, hfails⟩
    · have hsound : d.Sound regex? names := RuleDraft.compile_isOk_iff.1 ⟨r, hr⟩
      have hmore := @ih (index + 1)
      simp only [Nat.add_assoc, Nat.add_comm 1] at hmore
      rw [hr, or_iff_right fun h => h.not_sound hsound, and_iff_right hsound, ← hmore]
      dsimp only
      cases compileRules regex? names state (index + 1) ds with
      | error g => exact Iff.rfl
      | ok rs => simp
    · rw [or_iff_left fun h => hfails.not_sound h.1, ← RuleDraft.compile_eq_error_iff]
      simp only [Nat.add_zero, hg, Except.error.injEq]

theorem compileStates_isOk_iff {ss : List StateDraft} :
    (∃ sts, compileStates regex? names ss = .ok sts) ↔
      ∀ s ∈ ss, ∀ d ∈ s.rules, d.Sound regex? names := by
  induction ss with
  | nil => exact ⟨fun _ _ hs => absurd hs List.not_mem_nil, fun _ => ⟨[], rfl⟩⟩
  | cons s ss ih =>
    rw [List.forall_mem_cons, ← ih, ← @compileRules_isOk_iff regex? names s.name 0]
    constructor
    · rintro ⟨sts, hsts⟩
      rw [compileStates] at hsts
      split at hsts
      · cases hsts
      · next rules hrules =>
        split at hsts
        · cases hsts
        · next more hmore => exact ⟨⟨rules, hrules⟩, more, hmore⟩
    · rintro ⟨⟨rules, hrules⟩, more, hmore⟩
      exact ⟨⟨s.name, rules, s.defaultKind.getD .text⟩ :: more,
        by rw [compileStates, hrules, hmore]⟩

/-- The first state with a bad rule decides what is told. -/
theorem compileStates_eq_error_iff {ss : List StateDraft} :
    compileStates regex? names ss = .error f ↔
      FirstBad (fun s => ∀ d ∈ s.rules, d.Sound regex? names)
        (fun _ s => FirstBad (RuleDraft.Sound regex? names)
          (fun i d => d.Fails regex? names s.name i f) s.rules) ss := by
  induction ss with
  | nil => exact iff_of_false (by simp [compileStates]) firstBad_nil
  | cons s ss ih =>
    have hrules := @compileRules_eq_error_iff regex? names s.name 0 f s.rules
    simp only [Nat.zero_add] at hrules
    rw [compileStates, firstBad_cons, ← hrules]
    cases hr : compileRules regex? names s.name 0 s.rules with
    | ok rules =>
      rw [or_iff_right (by simp), and_iff_right (compileRules_isOk_iff.1 ⟨rules, hr⟩), ← ih]
      dsimp only
      cases compileStates regex? names ss with
      | error g => exact Iff.rfl
      | ok sts => simp
    | error g =>
      rw [or_iff_left]
      · simp only [Except.error.injEq]
      · rintro ⟨hsound, -⟩
        obtain ⟨rules, hok⟩ := (@compileRules_isOk_iff regex? names s.name 0 _).2 hsound
        rw [hr] at hok
        cases hok

end

/-! ### Tables -/

/-- What a rule of a table has to do with its draft: it leads to the state the draft names. -/
structure RuleDraft.Resolved (regex? : List Char → Option Regex) (t : RuleTable) (d : RuleDraft)
    (r : Rule) : Prop where
  source : r.source = d.pattern
  regex : d.regex? regex? = some r.regex
  token : r.token = d.token
  merge : r.merge = d.merge
  next : r.next = d.next.bind t.find?
  declared : ∀ target ∈ d.next, (t.find? target).isSome = true

/-- What a table has to do with the calls it was made by: `start` is its first state, the others are
in the order of their first mention, names and places lead to each other, and a state has the rules
and the kind it was given. -/
structure RuleTable.Resolves (regex? : List Char → Option Regex) (calls : List DraftCall)
    (t : RuleTable) : Prop where
  names : t.states.map (·.name) = tableNames calls
  start : t.find? startName = some .start
  declared : ∀ name, (t.find? name).isSome = true ↔ name ∈ mentioned calls
  found : ∀ name id, t.find? name = some id ↔ ∃ st, t.state? id = some st ∧ st.name = name
  rules : ∀ st ∈ t.states,
    List.Forall₂ (RuleDraft.Resolved regex? t) (rulesOf calls st.name) st.rules
  defaultKind : ∀ st ∈ t.states, st.defaultKind = (kindOf? calls st.name).getD .text

section
variable {regex? : List Char → Option Regex} {calls : List DraftCall} {t : RuleTable}

/-- Among distinct names a name is found where it stands, and there only. -/
theorem findIdx?_name_iff {sts : List LexState} (hn : (sts.map (·.name)).Nodup) {name : String}
    {i : Nat} : sts.findIdx? (·.name == name) = some i ↔
      ∃ st, sts[i]? = some st ∧ st.name = name := by
  constructor
  · intro h
    obtain ⟨hi, hname, -⟩ := List.findIdx?_eq_some_iff_getElem.1 h
    exact ⟨sts[i], List.getElem?_eq_getElem hi, eq_of_beq hname⟩
  · rintro ⟨st, hst, rfl⟩
    obtain ⟨hi, rfl⟩ := List.getElem?_eq_some_iff.1 hst
    refine List.findIdx?_eq_some_iff_getElem.2 ⟨hi, beq_self_eq_true _, fun j hj he => ?_⟩
    refine List.nodup_iff_getElem?_ne_getElem?.1 hn j i hj (by rwa [List.length_map]) ?_
    have hname : sts[j].name = sts[i].name := eq_of_beq he
    simp [hi, Nat.lt_trans hj hi, hname]

theorem RuleTable.find?_eq_some_iff (hn : (t.states.map (·.name)).Nodup) {name : String}
    {id : StateId} : t.find? name = some id ↔ ∃ st, t.state? id = some st ∧ st.name = name := by
  rw [RuleTable.find?, Option.map_eq_some_iff, RuleTable.state?, ← findIdx?_name_iff hn]
  constructor
  · rintro ⟨i, hi, rfl⟩
    exact hi
  · intro h
    exact ⟨id.index, h, rfl⟩

/-- A rule that leads somewhere among the names of a table leads to the state of that name. -/
theorem RuleDraft.Compiled.resolved {names : List String} (hn : t.states.map (·.name) = names)
    {d : RuleDraft} {r : Rule} (h : d.Compiled regex? names r) : d.Resolved regex? t r := by
  have hfind : ∀ target, t.find? target = (names.findIdx? (· == target)).map StateId.mk := by
    intro target
    rw [RuleTable.find?, ← hn, List.findIdx?_map]
    rfl
  have hleads := h.leads
  rw [RuleDraft.Leads] at hleads
  refine ⟨h.source, h.regex, h.token, h.merge, ?_, fun target ht => ?_⟩
  · split at hleads
    · next hnext => rw [hleads, hnext, Option.bind_none]
    · next target hnext =>
      obtain ⟨i, hi, hr⟩ := hleads
      rw [hr, hnext, Option.bind_some, hfind, hi, Option.map_some]
  · rw [Option.mem_def.1 ht] at hleads
    obtain ⟨i, hi, -⟩ := hleads
    rw [hfind, hi]
    rfl

theorem map_name_compiled {names : List String} {ds : List StateDraft} {sts : List LexState}
    (h : List.Forall₂ (StateDraft.Compiled regex? names) ds sts) :
    sts.map (·.name) = ds.map (·.name) := by
  induction h with
  | nil => rfl
  | cons hst _ ih => rw [List.map_cons, List.map_cons, hst.name, ih]

/-- A table that was built resolves the calls. -/
theorem RuleTable.resolves (h : (TableDraft.made calls).build regex? = .ok t) :
    t.Resolves regex? calls := by
  obtain ⟨states, ho, -, hstates⟩ := TableDraft.build_eq_ok h
  rw [TableDraft.ordered_made] at ho
  obtain ⟨hstart, hstatesEq⟩ := Option.ite_none_right_eq_some.1 ho
  obtain rfl := Option.some.inj hstatesEq
  have hmap : ((tableNames calls).map (stateOf calls)).map (·.name) = tableNames calls := by
    rw [List.map_map]
    exact List.map_id _
  rw [hmap] at hstates
  have hnames : t.states.map (·.name) = tableNames calls := (map_name_compiled hstates).trans hmap
  have hdistinct : (t.states.map (·.name)).Nodup := hnames ▸ nodup_tableNames calls
  have hof : ∀ st ∈ t.states, (stateOf calls st.name).Compiled regex? (tableNames calls) st := by
    intro st hst
    obtain ⟨d, hd, hcompiled⟩ := exists_related hstates hst
    obtain ⟨name, -, rfl⟩ := List.mem_map.1 hd
    rwa [show st.name = name from hcompiled.name]
  have hfound := @RuleTable.find?_eq_some_iff t hdistinct
  refine ⟨hnames, ?_, fun name => ?_, fun name id => hfound,
    fun st hst => (hof st hst).rules.imp fun d r hr => hr.resolved hnames,
    fun st hst => (hof st hst).defaultKind⟩
  · refine hfound.2 ?_
    cases hfirst : t.states with
    | nil => simp [hfirst, tableNames] at hnames
    | cons st more =>
      rw [hfirst, List.map_cons, tableNames] at hnames
      exact ⟨st, by rw [RuleTable.state?, hfirst]; rfl, (List.cons.inj hnames).1⟩
  · rw [← mem_tableNames hstart, ← hnames, RuleTable.find?, Option.isSome_map,
      List.findIdx?_isSome, List.any_eq_true, List.mem_map]
    simp only [beq_iff_eq]

/-- The states of a table that was built have different names. -/
theorem RuleTable.nodup_names (h : (TableDraft.made calls).build regex? = .ok t) :
    (t.states.map (·.name)).Nodup := (resolves h).names ▸ nodup_tableNames calls

theorem TableDraft.build_made_eq (regex? : List Char → Option Regex) (calls : List DraftCall) :
    (TableDraft.made calls).build regex? =
    if startName ∈ mentioned calls then
      if maxStates < (tableNames calls).length then .error .tooManyStates
      else (compileStates regex? (tableNames calls) ((tableNames calls).map (stateOf calls))).map .mk
    else .error .missingStart := by
  have hnames : ((tableNames calls).map (stateOf calls)).map (·.name) = tableNames calls := by
    rw [List.map_map]
    exact List.map_id _
  rw [TableDraft.build, TableDraft.ordered_made]
  by_cases hstart : startName ∈ mentioned calls
  · rw [if_pos hstart, if_pos hstart]
    dsimp only
    rw [List.length_map, hnames]
    refine if_congr Iff.rfl rfl ?_
    cases compileStates regex? (tableNames calls) ((tableNames calls).map (stateOf calls)) <;> rfl
  · rw [if_neg hstart, if_neg hstart]

/-- **Which calls make a table.** Whatever reads the patterns, they do when `start` was mentioned, there
are not too many states and all rules are sound; the table then resolves the calls. Otherwise it is
told that `start` is missing or that there are too many states, or else, by the first state with a bad
rule, the first failing check of the first such rule. -/
theorem TableDraft.build_made (regex? : List Char → Option Regex) (calls : List DraftCall) :
    let names := tableNames calls
    let sound := fun name => ∀ d ∈ rulesOf calls name, d.Sound regex? names
    ((∃ t, (made calls).build regex? = .ok t) ↔
        startName ∈ mentioned calls ∧ names.length ≤ maxStates ∧ ∀ name ∈ names, sound name) ∧
      (∀ t, (made calls).build regex? = .ok t → t.Resolves regex? calls) ∧
      ∀ f, (made calls).build regex? = .error f ↔
        (startName ∉ mentioned calls ∧ f = .missingStart) ∨
        (startName ∈ mentioned calls ∧ maxStates < names.length ∧ f = .tooManyStates) ∨
        (startName ∈ mentioned calls ∧ names.length ≤ maxStates ∧
          FirstBad sound (fun _ name => FirstBad (RuleDraft.Sound regex? names)
            (fun i d => d.Fails regex? names name i f) (rulesOf calls name)) names) := by
  intro names sound
  have hok := @compileStates_isOk_iff regex? names (names.map (stateOf calls))
  have herror := fun f => @compileStates_eq_error_iff regex? names f (names.map (stateOf calls))
  simp only [firstBad_map] at herror
  rw [List.forall_mem_map] at hok
  refine ⟨?_, fun t => RuleTable.resolves, fun f => ?_⟩
  · rw [TableDraft.build_made_eq]
    by_cases hstart : startName ∈ mentioned calls
    · rw [if_pos hstart, and_iff_right hstart]
      by_cases hmany : maxStates < names.length
      · rw [if_pos hmany]
        exact iff_of_false nofun fun h => Nat.not_lt.2 h.1 hmany
      · rw [if_neg hmany, and_iff_right (Nat.not_lt.1 hmany)]
        refine Iff.trans ?_ hok
        cases compileStates regex? names (names.map (stateOf calls)) with
        | ok sts => exact iff_of_true ⟨_, rfl⟩ ⟨_, rfl⟩
        | error f => exact iff_of_false nofun nofun
    · rw [if_neg hstart]
      exact iff_of_false nofun fun h => hstart h.1
  · rw [TableDraft.build_made_eq]
    by_cases hstart : startName ∈ mentioned calls
    · by_cases hmany : maxStates < names.length
      · simp [hstart, hmany, Nat.not_le.2 hmany, names, eq_comm]
      · rw [if_pos hstart, if_neg hmany]
        simp only [hstart, hmany, not_true, false_and, false_or, true_and, Nat.not_lt.1 hmany]
        refine Iff.trans ?_ (herror f)
        cases compileStates regex? names (names.map (stateOf calls)) with
        | ok sts => exact iff_of_false nofun nofun
        | error g =>
          show Except.error g = Except.error f ↔ Except.error g = Except.error f
          simp only [Except.error.injEq]
    · simp [hstart, eq_comm]

/-- Calls that come back to a state, lead on to one that is declared later, and mention `start`
last. -/
def stringCalls : List DraftCall :=
  [.defaultKind "string" .string,
    .rule "string" {pattern := "'", token := .kind .string, next := some "end"},
    .rules "end" [], .defaultKind "string" .comment,
    .rule "string"
      {pattern := "(\\\\)(.)", token := .groups [.constantEscape, .text], merge := true},
    .rule "start" {pattern := "'", token := .kind .string, next := some "string"}]

theorem build_made_string : ∃ t, (TableDraft.made stringCalls).build = .ok t ∧
    t.Resolves Matcher.regex? stringCalls ∧ tableNames stringCalls = ["start", "string", "end"] := by
  have hok : (TableDraft.made stringCalls).build.isOk = true := by decide +kernel
  cases h : (TableDraft.made stringCalls).build with
  | error e => simp [h, Except.isOk, Except.toBool] at hok
  | ok t => exact ⟨t, rfl, (TableDraft.build_made Matcher.regex? stringCalls).2.1 t h, by decide⟩

end

end CodeEditing.Lexing
