import CodeEditing.Lexing.Coffee
import CodeEditing.Proofs.Lexing.Build
import CodeEditing.Proofs.Pattern.Search

/-! The CoffeeScript table.

A rule can be compiled when its pattern is read and always takes a character, has a group for each
kind and leads to a state there is (`RuleDraft.Fits`), and a table of such rules can be built
(`TableDraft.build_isOk`). `Coffee.build_eq` says so of the CoffeeScript draft, and
`Coffee.state?_start` what the state `start` of its table is made of.

The patterns of the state `start` are long. To read them character by character is slow where it has
to be checked, so their characters are written down by the way (`Coffee.startTexts`). -/
namespace CodeEditing.Lexing

/-- The pattern that a text stands for when it is held at the start. -/
def heldForm? (cs : List Char) : Option Pattern := Pattern.ofText? (heldText cs)

theorem regex?_eq_some {d : RuleDraft} {p : Pattern} (h : heldForm? d.pattern.toList = some p) :
    d.regex? Matcher.regex? = some p.matcher.regex := by
  rw [heldForm?] at h
  rw [RuleDraft.regex?, Matcher.regex?, Matcher.ofText?, h]
  rfl

theorem compiled_regex {names : List String} {d : RuleDraft} {r : Rule} {p : Pattern}
    (h : d.Compiled Matcher.regex? names r) (hp : heldForm? d.pattern.toList = some p) :
    r.regex = p.matcher.regex :=
  Option.some.inj (h.regex.symm.trans (regex?_eq_some hp))

/-- A compiled rule takes as many characters as its pattern does. -/
theorem compiled_stop {names : List String} {d : RuleDraft} {r : Rule} {p : Pattern}
    (h : d.Compiled Matcher.regex? names r) (hp : heldForm? d.pattern.toList = some p)
    (text : List Char) : (r.regex.find text).map (·.stop) = (p.matcher.search text).map (·.stop) := by
  rw [compiled_regex h hp]
  exact p.matcher.map_stop_find text

/-- A compiled rule matches where its pattern does. -/
theorem compiled_isSome {names : List String} {d : RuleDraft} {r : Rule} {p : Pattern}
    (h : d.Compiled Matcher.regex? names r) (hp : heldForm? d.pattern.toList = some p)
    (text : List Char) : (r.regex.find text).isSome = (p.matcher.search text).isSome := by
  rw [compiled_regex h hp]
  exact Option.isSome_map

/-! ### Rules that fit -/

/-- Whether a rule whose pattern has these characters can be compiled, among states of the names. It
has to be plain that the pattern takes a character and begins at the start. -/
def RuleDraft.fits (names : List String) (d : RuleDraft) (cs : List Char) : Bool :=
  (heldForm? cs).any fun p =>
    p.takesSome && p.beginsAt .textStart && d.next.all names.contains &&
      match d.token with
      | .groups kinds => kinds.length == p.groupCount
      | _ => true

def RuleDraft.Fits (names : List String) (d : RuleDraft) : Prop :=
  d.fits names d.pattern.toList = true

theorem RuleDraft.compile_isOk {names : List String} {d : RuleDraft} (h : d.Fits names)
    (state : String) (index : Nat) : ∃ r, d.compile Matcher.regex? names state index = .ok r := by
  obtain ⟨p, hp, hfit⟩ := (Option.any_eq_true _ _).1 h
  simp only [Bool.and_eq_true] at hfit
  obtain ⟨⟨⟨hsome, -⟩, hnext⟩, hgroups⟩ := hfit
  unfold compile
  rw [regex?_eq_some hp]
  dsimp -zeta only
  rw [if_neg (by rw [Matcher.regex_occursIn, Pattern.occursIn_nil hsome]; nofun)]
  extract_lets misfit
  have hmisfit : misfit = none := by
    unfold misfit
    split
    · next kinds hk =>
      rw [hk] at hgroups
      exact if_pos (eq_of_beq hgroups)
    · rfl
  rw [hmisfit]
  dsimp only
  cases hn : d.next with
  | none => exact ⟨_, rfl⟩
  | some target =>
    rw [hn] at hnext
    cases hi : names.findIdx? (· == target) with
    | some i =>
      refine ⟨⟨d.pattern, p.matcher.regex, d.token, d.merge, some ⟨i⟩⟩, ?_⟩
      simp only [hi]
    | none =>
      have hmem : target ∈ names := List.contains_iff_mem.1 hnext
      have := List.findIdx?_eq_none_iff.1 hi target hmem
      simp at this

theorem compileRules_isOk {names : List String} {ds : List RuleDraft}
    (h : ∀ d ∈ ds, d.Fits names) (state : String) (index : Nat) :
    ∃ rs, compileRules Matcher.regex? names state index ds = .ok rs := by
  induction ds generalizing index with
  | nil => exact ⟨[], rfl⟩
  | cons d ds ih =>
    obtain ⟨r, hr⟩ := RuleDraft.compile_isOk (h d List.mem_cons_self) state index
    obtain ⟨rs, hrs⟩ := ih (fun e he => h e (List.mem_cons_of_mem d he)) (index + 1)
    exact ⟨r :: rs, by rw [compileRules, hr, hrs]⟩

theorem compileStates_isOk {names : List String} {ds : List StateDraft}
    (h : ∀ s ∈ ds, ∀ d ∈ s.rules, d.Fits names) :
    ∃ sts, compileStates Matcher.regex? names ds = .ok sts := by
  induction ds with
  | nil => exact ⟨[], rfl⟩
  | cons s ss ih =>
    obtain ⟨rules, hr⟩ := compileRules_isOk (h s List.mem_cons_self) s.name 0
    obtain ⟨sts, hs⟩ := ih fun e he => h e (List.mem_cons_of_mem s he)
    exact ⟨_, by rw [compileStates, hr, hs]⟩

/-- A table can be built when each of its rules can be compiled. -/
theorem TableDraft.build_isOk {d : TableDraft} {states : List StateDraft}
    (ho : d.ordered = some states) (hl : states.length ≤ maxStates)
    (h : ∀ s ∈ states, ∀ r ∈ s.rules, r.Fits (states.map (·.name))) : ∃ t, d.build = .ok t := by
  obtain ⟨compiled, hc⟩ := compileStates_isOk h
  exact ⟨⟨compiled⟩, by simp only [build, ho, if_neg (Nat.not_lt.2 hl), hc]⟩

/-! ### Patterns written down -/

/-- The texts are the characters of the rules' patterns. -/
def Written (rules : List RuleDraft) (texts : List (List Char)) : Prop :=
  List.Forall₂ (fun d cs => d.pattern.toList = cs) rules texts

/-- What is checked of the characters written down holds of the patterns. -/
theorem Written.all {rules : List RuleDraft} {texts : List (List Char)}
    (hw : Written rules texts) {check : RuleDraft → List Char → Bool}
    (h : (List.zipWith check rules texts).all id = true) :
    ∀ d ∈ rules, check d d.pattern.toList = true := by
  induction hw with
  | nil => exact fun _ hd => absurd hd List.not_mem_nil
  | @cons d cs rules texts hd _ ih =>
    obtain ⟨hcs, hmore⟩ := Bool.and_eq_true_iff.1 h
    intro e he
    rcases List.mem_cons.1 he with rfl | he
    · rw [hd]
      exact hcs
    · exact ih hmore e he

/-- What is found among the characters written down is found among the patterns. -/
theorem Written.any {rules : List RuleDraft} {texts : List (List Char)}
    (hw : Written rules texts) {check : RuleDraft → List Char → Bool}
    (h : (List.zipWith check rules texts).any id = true) :
    ∃ d ∈ rules, check d d.pattern.toList = true := by
  induction hw with
  | nil => exact nomatch h
  | @cons d cs rules texts hd _ ih =>
    rcases Bool.or_eq_true_iff.1 h with hcs | hmore
    · exact ⟨d, List.mem_cons_self, by rw [hd]; exact hcs⟩
    · obtain ⟨e, he, hcheck⟩ := ih hmore
      exact ⟨e, List.mem_cons_of_mem d he, hcheck⟩

/-! ### The table of CoffeeScript -/

namespace Coffee

/-- The characters of the patterns of the state `start`. -/
def startTexts : {texts // Written startRules texts} :=
  have lit {cs : List Char} : (String.ofList cs).toList = cs := String.toList_ofList
  have append {a b : String} {as bs : List Char} (ha : a.toList = as) (hb : b.toList = bs) :
      (a ++ b).toList = as ++ bs := by rw [String.toList_append, ha, hb]
  have inName {a b : String} {as bs : List Char} (ha : a.toList = as) (hb : b.toList = bs) :
      (a ++ name ++ b).toList = as ++ _ ++ bs := append (append ha lit) hb
  ⟨_, .cons lit <| .cons lit <| .cons lit <| .cons lit <| .cons lit <| .cons lit <| .cons lit <|
    .cons (append lit lit) <| .cons lit <| .cons lit <| .cons lit <| .cons (inName lit lit) <|
    .cons lit <| .cons (inName (inName (inName lit lit) lit) lit) <| .cons (inName lit lit) <|
    .cons lit <| .cons lit <| .cons lit <| .cons lit <| .cons lit <| .cons lit <| .cons lit <|
    .cons lit .nil⟩

/-- The states behind the first. -/
def moreStates : List StateDraft := (draft.ordered.getD []).tail

def states : List StateDraft := ⟨"start", startRules, none⟩ :: moreStates

theorem ordered_eq : draft.ordered = some states := rfl

/-- The names of the states. -/
def names : List String := states.map (·.name)

theorem states_fit : ∀ s ∈ states, ∀ d ∈ s.rules, d.Fits names := by
  have hmore : (moreStates.all fun s => s.rules.all fun d => d.fits names d.pattern.toList) =
      true := by decide +kernel
  intro s hs
  rcases List.mem_cons.1 hs with rfl | hs
  · exact startTexts.2.all (by decide +kernel)
  · exact List.all_eq_true.1 (List.all_eq_true.1 hmore s hs)

/-- The table is that of the draft. -/
theorem build_eq : draft.build = .ok table := by
  obtain ⟨t, ht⟩ := TableDraft.build_isOk ordered_eq (by decide) states_fit
  rw [table, ht]
  rfl

/-- The first state of the built table has the rules of `startRules`. -/
theorem state?_start {t : RuleTable} (h : draft.build = .ok t) : ∃ st, t.state? .start = some st ∧
    List.Forall₂ (RuleDraft.Compiled Matcher.regex? names) startRules st.rules ∧
      st.defaultKind = .text := by
  obtain ⟨all, ho, -, hstates⟩ := TableDraft.build_eq_ok h
  obtain rfl := Option.some.inj (ordered_eq.symm.trans ho)
  unfold RuleTable.state?
  generalize t.states = compiled at hstates
  cases hstates with
  | cons h _ => exact ⟨_, rfl, h.rules, h.defaultKind⟩

end Coffee

end CodeEditing.Lexing
