import CodeEditing.Proofs.Lint.Plain

/-! What bracket tokens hold.

A rule of the CoffeeScript table makes no bracket token, or it is one of the two of the state `start`
that take a single bracket (`rules_honest`); what no rule takes is of another kind. So whatever states a
text goes through, and wherever its lines are cut, its bracket tokens hold brackets and nothing else
(`mem_brackets_of_mem`). -/
namespace CodeEditing.Lint

open Lexing Lexing.Coffee
open Document (Line Cell)

/-! ### Honest rules -/

/-- Whether a rule makes bracket tokens of brackets only. -/
inductive Honest (r : Rule) : Prop
  | quiet (token : Quiet r.token)
  | bracket {k : Kind} (token : r.token = .kind k) (kind : isBracket k = true)
      (merge : r.merge = false)
      (taken : ∀ cs m, r.regex.find cs = some m → ∀ c ∈ cs.take m.stop, c ∈ brackets)

section
variable {r : Rule} {m : Match.Span} {cs : List Char} {start : Nat} {out : List Token}

theorem Honest.emit (h : Honest r) (hm : r.regex.find cs = some m)
    (hout : ∀ c ∈ shown out.reverse, c ∈ brackets) :
    ∀ c ∈ shown (r.emit cs m.stop start out).reverse, c ∈ brackets := by
  cases h with
  | quiet token => rwa [shown_emit_quiet token]
  | bracket token kind merge taken =>
    rw [shown_emit_bracket token kind merge]
    intro c hc
    rcases List.mem_append.1 hc with hc | hc
    · exact hout c hc
    · exact taken cs m hm c hc

end

/-- The pattern of a single bracket takes one, which is of the set. -/
theorem take_bracket {set : CharSet} {cs : List Char} {m : Match}
    (h : (bracketForm set).matcher.search cs = some m) :
    ∃ c, cs.take m.stop = [c] ∧ set.contains c = true := by
  obtain ⟨t, ⟨u, ⟨-, rfl⟩, c, ⟨rest, hrest, rfl⟩, hc⟩, hstop⟩ := Pattern.held_sound (by rfl) h
  refine ⟨c, ?_, hc⟩
  rw [← hstop, show cs = c :: rest from hrest]
  rfl

/-! ### The rules of the table -/

/-- Whether a rule makes no bracket token, or takes a single bracket. -/
def honest (d : RuleDraft) (cs : List Char) : Bool :=
  quiet d.token || !d.merge && (bracketKind? d.token).isSome &&
    (heldForm? cs == some (bracketForm openSet) || heldForm? cs == some (bracketForm closeSet))

theorem startRules_honest : ∀ d ∈ startRules, honest d d.pattern.toList = true :=
  startTexts.2.all (by decide +kernel)

/-- Whether a rule has one kind for all it takes, and this is no bracket. -/
def plainKind : TokenSpec → Bool
  | .kind k => !isBracket k
  | _ => false

theorem bracketKind?_isSome {token : TokenSpec} (h : (bracketKind? token).isSome = true) :
    ∃ k, token = .kind k ∧ isBracket k = true := by
  cases token with
  | kind k =>
    refine ⟨k, rfl, ?_⟩
    by_contra hk
    simp [bracketKind?, hk] at h
  | classify f => simp [bracketKind?] at h
  | groups kinds => simp [bracketKind?] at h

/-- Bracket tokens are made in the state `start` only. -/
theorem moreStates_plain : ∀ s ∈ moreStates, ∀ d ∈ s.rules, plainKind d.token = true := by
  have hall : (moreStates.all fun s => s.rules.all fun d => plainKind d.token) = true := by
    decide +kernel
  exact fun s hs d hd => List.all_eq_true.1 (List.all_eq_true.1 hall s hs) d hd

theorem quiet_of_plainKind {token : TokenSpec} (h : plainKind token = true) : Quiet token := by
  cases token with
  | kind k => simpa [Quiet, plainKind] using h
  | classify f => simp [plainKind] at h
  | groups kinds => simp [plainKind] at h

theorem Honest.ofQuiet {names : List String} {d : RuleDraft} {r : Rule}
    (hd : d.Compiled Matcher.regex? names r) (h : Quiet d.token) : Honest r := .quiet (hd.token ▸ h)

theorem Honest.ofStart {names : List String} {d : RuleDraft} {r : Rule} (hmem : d ∈ startRules)
    (hd : d.Compiled Matcher.regex? names r) : Honest r := by
  rcases Bool.or_eq_true_iff.1 (startRules_honest d hmem) with h | h
  · exact .ofQuiet hd (quiet_of_mem hmem h)
  · simp only [Bool.and_eq_true, Bool.or_eq_true, Bool.not_eq_true', beq_iff_eq] at h
    obtain ⟨⟨hmerge, hsome⟩, hform⟩ := h
    obtain ⟨k, hkind, hk⟩ := bracketKind?_isSome hsome
    -- what matches is a bracket of the set, the opening ones or the closing ones
    refine .bracket (hd.token.trans hkind) hk (hd.merge.trans hmerge) fun cs m hm c hc => ?_
    rcases hform with hform | hform
    all_goals
      rw [compiled_regex hd hform] at hm
      obtain ⟨whole, hwhole, rfl⟩ := Regex.exists_captures hm
      obtain ⟨b, hb, hset⟩ := take_bracket hwhole
      rw [show cs.take whole.span.stop = [b] from hb, List.mem_singleton] at hc
      subst hc
    · exact mem_brackets.2 (.inl hset)
    · exact mem_brackets.2 (.inr hset)

/-- Every rule of the table is honest, and what no rule takes makes no bracket token. -/
theorem rules_honest {t : RuleTable} (ht : draft.build = .ok t) {st : LexState}
    (hst : st ∈ t.states) : (∀ r ∈ st.rules, Honest r) ∧ isBracket st.defaultKind = false := by
  obtain ⟨all, ho, -, hstates⟩ := TableDraft.build_eq_ok ht
  obtain rfl := Option.some.inj (ordered_eq.symm.trans ho)
  obtain ⟨s, hs, hcompiled⟩ := exists_related hstates hst
  have hkinds : (states.all fun s => !isBracket (s.defaultKind.getD .text)) = true := by
    decide +kernel
  refine ⟨fun r hr => ?_, ?_⟩
  · obtain ⟨d, hd, hrule⟩ := exists_related hcompiled.rules hr
    rcases List.mem_cons.1 hs with rfl | hs
    · exact .ofStart hd hrule
    · exact .ofQuiet hrule (quiet_of_plainKind (moreStates_plain s hs d hd))
  · rw [hcompiled.defaultKind]
    simpa using List.all_eq_true.1 hkinds s hs

/-! ### Every scan -/

/-- The bracket tokens found so far hold brackets. -/
def ShowsBrackets (s : Scan) : Prop := ∀ c ∈ shown s.tokens.reverse, c ∈ brackets

section
variable {t : RuleTable} {cap : Nat} {strict : Bool} {s s' : Scan}

theorem ShowsBrackets.moves (ht : draft.build = .ok t) (hm : Scan.Moves t cap strict s s')
    (h : ShowsBrackets s) : ShowsBrackets s' := by
  have hpush : ∀ {merge kind value start}, isBracket kind = false →
      ∀ c ∈ shown (push merge kind value start s.tokens).reverse, c ∈ brackets := by
    intro merge kind value start hkind
    rwa [shown_push hkind]
  have hstate : ∀ {st}, t.state? s.state = some st → st ∈ t.states := List.mem_of_getElem?
  cases hm with
  | cut full => exact hpush (by decide +kernel)
  | lost room missing => exact h
  | skip room found rest unmatched => exact hpush (rules_honest ht (hstate found)).2
  | note room found rest matched nothing lenient =>
    exact hpush (rules_honest ht (hstate found)).2
  | take room found matched some =>
    obtain ⟨before, after, hrules, -, hsearch, -⟩ := firstMatch_eq_some matched
    have hmem := hrules ▸ List.mem_append_right before List.mem_cons_self
    exact ((rules_honest ht (hstate found)).1 _ hmem).emit hsearch h

theorem shown_tokenizeFrom (ht : draft.build = .ok t) (state : StateId) (lines : List Line) :
    ∀ r ∈ (⟨t, cap⟩ : Tokenizer).tokenizeFrom state lines, ∀ c ∈ shown r.tokens, c ∈ brackets := by
  induction lines generalizing state with
  | nil => exact fun r hr => absurd hr List.not_mem_nil
  | cons line lines ih =>
    intro r hr
    rcases List.mem_cons.1 hr with rfl | hr
    · obtain ⟨s, hs, hrow, -⟩ :=
        Tokenizer.exists_scan (t := ⟨t, cap⟩) (TableDraft.build_closed ht) state line
      rw [hrow]
      exact (Scan.run_moves (fun _ hm h => ShowsBrackets.moves ht hm h)
        (fun c hc => absurd hc List.not_mem_nil) hs).1
    · exact ih _ r hr

end

/-- **Bracket tokens hold brackets.** -/
theorem mem_brackets_of_mem {lines : List Line} {x : Cell} (h : x ∈ bracketCells lines) :
    x.char ∈ brackets := by
  have hmem := List.mem_map_of_mem (f := Cell.char) h
  rw [bracketCells, chars_bracketCellsFrom] at hmem
  obtain ⟨r, hr, hc⟩ := List.mem_flatMap.1 hmem
  exact shown_tokenizeFrom build_eq .start lines r hr _ hc

end CodeEditing.Lint
