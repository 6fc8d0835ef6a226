import CodeEditing.Lexing.Scan

/-! What a scan does step by step.

`Scan.Moves` lists what one step can do, with all that decides it; `Scan.step_moves` says that a step
does one of these things, and `Scan.Moves.step` that it does the one that applies. `Scan.run_moves`
carries what every step keeps to the end of the line, where nothing is left. A scan that is not
strict never fails (`Scan.run_lenient`). -/
namespace CodeEditing.Lexing

/-! ### The rule that is taken -/

/-- The first rule that matches is one of the rules, and none before it matches. -/
theorem firstMatch_eq_some {rest : List Char} {index i : Nat} {rules : List Rule} {r : Rule}
    {m : Match.Span} (h : firstMatch rest index rules = some (i, r, m)) :
    ∃ before after, rules = before ++ r :: after ∧ i = index + before.length ∧
      r.regex.find rest = some m ∧ ∀ q ∈ before, q.regex.find rest = none := by
  induction rules generalizing index with
  | nil => simp [firstMatch] at h
  | cons q qs ih =>
    rw [firstMatch] at h
    split at h
    · next found hq =>
      simp only [Option.some.injEq, Prod.mk.injEq] at h
      obtain ⟨rfl, rfl, rfl⟩ := h
      exact ⟨[], qs, rfl, rfl, hq, by simp⟩
    · next hq =>
      obtain ⟨before, after, rfl, rfl, hm, hb⟩ := ih h
      refine ⟨q :: before, after, rfl, by simp only [List.length_cons]; omega, hm, fun p hp => ?_⟩
      rcases List.mem_cons.1 hp with rfl | hp
      · exact hq
      · exact hb p hp

theorem firstMatch_eq_none_iff {rest : List Char} {index : Nat} {rules : List Rule} :
    firstMatch rest index rules = none ↔ ∀ r ∈ rules, r.regex.find rest = none := by
  induction rules generalizing index with
  | nil => simp [firstMatch]
  | cons q qs ih =>
    rw [firstMatch]
    cases hq : q.regex.find rest with
    | some m => simp [hq]
    | none => simp [hq, ih]

/-! ### Steps -/

/-- What a step of a scan can do: cut the line, end in a state that is not there, skip a character
that no rule takes or one in front of which a rule takes nothing, or take what a rule matches. -/
inductive Scan.Moves (t : RuleTable) (cap : Nat) (strict : Bool) (s : Scan) : Scan → Prop
  | cut (full : cap ≤ s.tokens.length) : Moves t cap strict s s.cut
  | lost (room : s.tokens.length < cap) (missing : t.state? s.state = none) :
      Moves t cap strict s {s with rest := []}
  | skip {st : LexState} {c : Char} {cs : List Char} (room : s.tokens.length < cap)
      (found : t.state? s.state = some st) (rest : s.rest = c :: cs)
      (unmatched : firstMatch s.rest 0 st.rules = none) :
      Moves t cap strict s (s.skip st.defaultKind c cs)
  | note {st : LexState} {c : Char} {cs : List Char} {index : Nat} {rule : Rule} {m : Match.Span}
      (room : s.tokens.length < cap) (found : t.state? s.state = some st) (rest : s.rest = c :: cs)
      (matched : firstMatch s.rest 0 st.rules = some (index, rule, m)) (nothing : m.stop = 0)
      (lenient : strict = false) :
      Moves t cap strict s
        {s.skip st.defaultKind c cs with noted := ⟨st.name, index, s.offset⟩ :: s.noted}
  | take {st : LexState} {index : Nat} {rule : Rule} {m : Match.Span} (room : s.tokens.length < cap)
      (found : t.state? s.state = some st)
      (matched : firstMatch s.rest 0 st.rules = some (index, rule, m)) (some : 0 < m.stop) :
      Moves t cap strict s (s.take rule m)

/-- A step that does not fail is one of the moves. -/
theorem Scan.step_moves {t : RuleTable} {cap : Nat} {strict : Bool} {s s' : Scan} {c : Char}
    {cs : List Char} (hs : s.rest = c :: cs) (h : s.step t cap strict c cs = .ok s') :
    Scan.Moves t cap strict s s' := by
  rw [Scan.step] at h
  split at h
  · next hcap =>
    obtain rfl := Except.ok.inj h
    exact .cut hcap
  · next hcap =>
    have room : s.tokens.length < cap := Nat.lt_of_not_ge hcap
    split at h
    · next hst =>
      obtain rfl := Except.ok.inj h
      exact .lost room hst
    · next st hst =>
      split at h
      · next hm =>
        obtain rfl := Except.ok.inj h
        exact .skip room hst hs hm
      · next index rule m hm =>
        split at h
        · next hz =>
          cases strict with
          | true => simp at h
          | false =>
            obtain rfl := Except.ok.inj h
            exact .note room hst hs hm hz rfl
        · next hz =>
          obtain rfl := Except.ok.inj h
          exact .take room hst hm (Nat.pos_of_ne_zero hz)

/-- Each of the moves is what the step does. -/
theorem Scan.Moves.step {t : RuleTable} {cap : Nat} {strict : Bool} {s s' : Scan} {c : Char}
    {cs : List Char} (hs : s.rest = c :: cs) (h : Scan.Moves t cap strict s s') :
    s.step t cap strict c cs = .ok s' := by
  have hroom : s.tokens.length < cap → ¬ s.tokens.length ≥ cap := Nat.not_le.2
  cases h with
  | cut full => exact if_pos full
  | lost room missing => rw [Scan.step, if_neg (hroom room), missing]
  | skip room found rest unmatched =>
    obtain ⟨rfl, rfl⟩ := List.cons.inj (hs.symm.trans rest)
    simp only [Scan.step, if_neg (hroom room), found, unmatched]
  | note room found rest matched nothing lenient =>
    obtain ⟨rfl, rfl⟩ := List.cons.inj (hs.symm.trans rest)
    subst lenient
    simp only [Scan.step, if_neg (hroom room), found, matched, nothing]
    rfl
  | take room found matched some =>
    simp only [Scan.step, if_neg (hroom room), found, matched, if_neg (Nat.ne_of_gt some)]

/-- A step that may pass over empty matches does not fail. -/
theorem Scan.step_lenient (t : RuleTable) (cap : Nat) (s : Scan) (c : Char) (cs : List Char) :
    ∃ s', s.step t cap false c cs = .ok s' := by
  rw [Scan.step]
  split
  · exact ⟨_, rfl⟩
  · split
    · exact ⟨_, rfl⟩
    · split
      · exact ⟨_, rfl⟩
      · split <;> exact ⟨_, rfl⟩

/-! ### Runs -/

theorem Scan.run_nil {t : RuleTable} {cap : Nat} {strict : Bool} {s : Scan}
    (hrest : s.rest = []) : s.run t cap strict = .ok s := by
  rw [Scan.run.eq_def]
  split
  · rfl
  · next hr => cases hrest.symm.trans hr

theorem Scan.run_step {t : RuleTable} {cap : Nat} {strict : Bool} {s next : Scan} {c : Char}
    {cs : List Char} (hrest : s.rest = c :: cs) (hstep : s.step t cap strict c cs = .ok next) :
    s.run t cap strict = next.run t cap strict := by
  rw [Scan.run.eq_def]
  split
  · next hr => cases hrest.symm.trans hr
  · next hr =>
    obtain ⟨rfl, rfl⟩ := List.cons.inj (hrest.symm.trans hr)
    split
    · next he => cases hstep.symm.trans he
    · next hs => rw [Except.ok.inj (hstep.symm.trans hs)]

/-- What every step keeps holds at the end of the line. -/
theorem Scan.run_moves {t : RuleTable} {cap : Nat} {strict : Bool} {P : Scan → Prop}
    (keeps : ∀ {s s' : Scan}, s.rest ≠ [] → Scan.Moves t cap strict s s' → P s → P s') {s s' : Scan}
    (hs : P s) (h : s.run t cap strict = .ok s') : P s' ∧ s'.rest = [] := by
  fun_induction Scan.run t cap strict s with
  | case1 s hr =>
    obtain rfl := Except.ok.inj h
    exact ⟨hs, hr⟩
  | case2 s c cs hr e he => simp at h
  | case3 s c cs hr next hstep ih =>
    exact ih (keeps (by simp [hr]) (Scan.step_moves hr hstep) hs) h

/-- A scan that is not strict comes to the end of the line. -/
theorem Scan.run_lenient (t : RuleTable) (cap : Nat) (s : Scan) :
    ∃ s', s.run t cap false = .ok s' := by
  fun_induction Scan.run t cap false s with
  | case1 s hr => exact ⟨s, rfl⟩
  | case2 s c cs hr e he =>
    obtain ⟨s', hs'⟩ := Scan.step_lenient t cap s c cs
    rw [he] at hs'
    simp at hs'
  | case3 s c cs hr next hstep ih => exact ih

end CodeEditing.Lexing
