import CodeEditing.Proofs.Lexing.Walk

/-! Scanning on behind tokens that are there already.

A scan that is in the middle of a line does what a scan of the rest of the line does on its own,
only further to the right, on top of the tokens that are there, and with the cap left that they
leave (`Scan.run_onTop`). One thing could get in between: its first token might join the latest one
there. It does not where the rules of the state do not merge and what they leave is of another kind
(`Scan.Apart`), and as soon as there is a token on top, nothing reaches what lies below. -/
namespace CodeEditing.Lexing

/-! ### Tokens on top of others -/

/-- The token further to the right. -/
def Token.shift (n : Nat) (t : Token) : Token := {t with start := n + t.start}

/-- Tokens, latest first, further to the right and on top of those of `base`. -/
def onTop (base : List Token) (n : Nat) (out : List Token) : List Token :=
  out.map (·.shift n) ++ base

variable {base out : List Token} {merge : Bool} {kind : Kind} {value matched : List Char}
  {start cursor : Nat}

theorem length_onTop (base : List Token) (n : Nat) (out : List Token) :
    (onTop base n out).length = out.length + base.length := by
  rw [onTop, List.length_append, List.length_map]

/-- A token that does not join the latest of `base` is added on top. -/
theorem push_onTop (n : Nat)
    (h : out = [] → merge = true → ∀ last ∈ base.head?, last.kind ≠ kind) :
    push merge kind value (n + start) (onTop base n out) =
      onTop base n (push merge kind value start out) := by
  cases out with
  | nil =>
    cases base with
    | nil => rfl
    | cons last more =>
      have hapart : (merge && last.kind == kind) = false := by
        cases merge with
        | false => rfl
        | true => simpa using h rfl rfl last rfl
      simp only [onTop, push, List.map_nil, List.nil_append, hapart]
      rfl
  | cons last more =>
    simp only [onTop, push, List.map_cons, List.cons_append]
    by_cases hjoin : (merge && last.kind == kind) = true
    · rw [if_pos hjoin, if_pos (show (merge && (last.shift n).kind == kind) = true from hjoin)]
      rfl
    · rw [if_neg hjoin, if_neg (show ¬ (merge && (last.shift n).kind == kind) = true from hjoin)]
      rfl

theorem push_ne_nil : push merge kind value start out ≠ [] := by
  cases out with
  | nil => exact List.cons_ne_nil _ _
  | cons last more =>
    rw [push]
    split <;> exact List.cons_ne_nil _ _

theorem push_false (kind : Kind) (value : List Char) (start : Nat) (out : List Token) :
    push false kind value start out = ⟨kind, value, start⟩ :: out := by
  cases out <;> rfl

theorem pushSome_onTop (n : Nat) (h : out = [] → merge = false) :
    (if value.isEmpty then onTop base n out
      else push merge kind value (n + start) (onTop base n out)) =
      onTop base n (if value.isEmpty then out else push merge kind value start out) := by
  by_cases hv : value.isEmpty = true
  · rw [if_pos hv, if_pos hv]
  · rw [if_neg hv, if_neg hv]
    exact push_onTop n fun hout hmerge => by simp [h hout] at hmerge

theorem pushGroups_onTop (n : Nat) (groups : List (Kind × Option Capture))
    (h : out = [] → merge = false) :
    pushGroups merge matched (n + start) cursor groups (onTop base n out) =
      onTop base n (pushGroups merge matched start cursor groups out) := by
  induction groups generalizing cursor out with
  | nil =>
    simp only [pushGroups, Nat.add_assoc]
    exact pushSome_onTop n h
  | cons p more ih =>
    obtain ⟨kind, group⟩ := p
    cases group with
    | none => exact ih h
    | some g =>
      simp only [pushGroups]
      split
      · exact ih h
      · simp only [Nat.add_assoc]
        rw [pushSome_onTop n h, push_onTop n ?_, ih fun hnil => absurd hnil push_ne_nil]
        intro hout hmerge
        split at hout
        · simp [h hout] at hmerge
        · exact absurd hout push_ne_nil

/-- Something comes of text that is left behind the cursor. -/
theorem pushGroups_ne_nil (merge : Bool) (start : Nat) (groups : List (Kind × Option Capture))
    (h : out ≠ [] ∨ matched.drop cursor ≠ []) :
    pushGroups merge matched start cursor groups out ≠ [] := by
  induction groups generalizing cursor out with
  | nil =>
    simp only [pushGroups]
    split
    · next hnone => exact h.resolve_right (not_not_intro (List.isEmpty_iff.1 hnone))
    · exact push_ne_nil
  | cons p more ih =>
    obtain ⟨kind, group⟩ := p
    cases group with
    | none => exact ih h
    | some g =>
      rw [pushGroups]
      split
      · exact ih h
      · exact ih (.inl push_ne_nil)

namespace Rule

theorem emit_onTop {rule : Rule} (rest : List Char) (stop n : Nat)
    (h : out = [] → rule.merge = false) :
    rule.emit rest stop (n + start) (onTop base n out) =
      onTop base n (rule.emit rest stop start out) := by
  have hone (kind : Kind) : push rule.merge kind (rest.take stop) (n + start) (onTop base n out) =
      onTop base n (push rule.merge kind (rest.take stop) start out) :=
    push_onTop n fun hout hmerge => by simp [h hout] at hmerge
  unfold emit
  split
  · exact hone _
  · exact hone _
  · split
    · exact hone _
    · exact pushGroups_onTop n _ h

theorem emit_ne_nil (rule : Rule) {rest : List Char} {stop : Nat} (hm : rest.take stop ≠ []) :
    rule.emit rest stop start out ≠ [] := by
  unfold emit
  split
  · exact push_ne_nil
  · exact push_ne_nil
  · split
    · exact push_ne_nil
    · exact pushGroups_ne_nil _ _ _ (.inr hm)

end Rule

/-! ### Scans on top of tokens -/

namespace Scan
variable {t : RuleTable} {cap : Nat} {s s' : Scan} {c : Char} {cs : List Char}

/-- A scan further to the right and on top of tokens. -/
def onTop (base : List Token) (n : Nat) (s : Scan) : Scan :=
  {s with
    offset := n + s.offset
    tokens := Lexing.onTop base n s.tokens
    noted := s.noted.map fun e => {e with offset := n + e.offset}}

/-- The first token of the scan cannot join the latest of `base`. -/
def Apart (t : RuleTable) (base : List Token) (s : Scan) : Prop :=
  s.tokens = [] → ∀ st, t.state? s.state = some st →
    (∀ rule ∈ st.rules, rule.merge = false) ∧ ∀ last ∈ base.head?, last.kind ≠ st.defaultKind

theorem skip_onTop {st : LexState} (n : Nat) (h : s.Apart t base)
    (hst : t.state? s.state = some st) :
    (s.onTop base n).skip st.defaultKind c cs = (s.skip st.defaultKind c cs).onTop base n := by
  simp only [skip, onTop, push_onTop n fun hout _ => (h hout st hst).2, Nat.add_assoc]

theorem cut_onTop (base : List Token) (n : Nat) (s : Scan) :
    (s.onTop base n).cut = s.cut.onTop base n := by
  simp only [cut, onTop, push_false, Nat.add_assoc]
  rfl

theorem take_onTop {rule : Rule} (m : Match.Span) (n : Nat) (h : s.tokens = [] → rule.merge = false) :
    (s.onTop base n).take rule m = (s.take rule m).onTop base n := by
  simp only [take, onTop, rule.emit_onTop s.rest m.stop n h, Nat.add_assoc]

/-- A move on top of tokens is the same move with the cap that they leave. -/
theorem Moves.onTop (n : Nat) (h : s.Apart t base) (hm : Moves t cap false s s') :
    Moves t (cap + base.length) false (s.onTop base n) (s'.onTop base n) := by
  have hlength : (s.onTop base n).tokens.length = s.tokens.length + base.length :=
    length_onTop base n s.tokens
  cases hm with
  | cut full => exact cut_onTop base n s ▸ .cut (by omega)
  | lost room missing => exact .lost (by omega) missing
  | skip room found rest unmatched =>
    exact skip_onTop n h found ▸ .skip (by omega) found rest unmatched
  | @note st c cs index rule m room found rest matched nothing lenient =>
    have hmove : Moves t (cap + base.length) false (s.onTop base n)
        {(s.onTop base n).skip st.defaultKind c cs with
          noted := ⟨st.name, index, n + s.offset⟩ :: (s.onTop base n).noted} :=
      .note (by omega) found rest matched nothing lenient
    rw [skip_onTop n h found] at hmove
    exact hmove
  | @take st index rule m room found matched some =>
    obtain ⟨before, after, hrules, -⟩ := firstMatch_eq_some matched
    have hrule : rule ∈ st.rules := hrules ▸ List.mem_append_right _ List.mem_cons_self
    have hmerge : s.tokens = [] → rule.merge = false := fun hout => (h hout st found).1 rule hrule
    exact take_onTop m n hmerge ▸ .take (by omega) found matched some

/-- Behind a move there is a token, unless the scan has come to the end. -/
theorem Moves.tokens_ne_nil {strict : Bool} (hne : s.rest ≠ []) (hm : Moves t cap strict s s') :
    s'.tokens ≠ [] ∨ s'.rest = [] := by
  cases hm with
  | cut full => exact .inr rfl
  | lost room missing => exact .inr rfl
  | skip room found rest unmatched => exact .inl push_ne_nil
  | note room found rest matched nothing lenient => exact .inl push_ne_nil
  | @take st index rule m room found matched some =>
    have hmatched : s.rest.take m.stop ≠ [] := by simp [hne, Nat.ne_of_gt some]
    exact .inl (rule.emit_ne_nil hmatched)

/-- **A scan on top of tokens** does what it does on its own, with the cap that they leave. -/
theorem run_onTop (n : Nat) (h : s.Apart t base) (hrun : s.run t cap false = .ok s') :
    (s.onTop base n).run t (cap + base.length) false = .ok (s'.onTop base n) := by
  fun_induction Scan.run t cap false s with
  | case1 s hr =>
    obtain rfl := Except.ok.inj hrun
    exact run_nil hr
  | case2 s c cs hr e he => cases hrun
  | case3 s c cs hr next hstep ih =>
    have hmove : Moves t cap false s next := step_moves hr hstep
    rw [run_step (s := s.onTop base n) hr ((hmove.onTop n h).step hr)]
    rcases hmove.tokens_ne_nil (by simp [hr]) with hsome | hend
    · exact ih (fun hnone => absurd hnone hsome) hrun
    · rw [run_nil hend] at hrun
      obtain rfl := Except.ok.inj hrun
      exact run_nil hend

end Scan

/-- The row of a scan on top of tokens. -/
theorem Tokenizer.rowOf_onTop (base : List Token) (n : Nat) (s : Scan) :
    rowOf (s.onTop base n) = ⟨base.reverse ++ (rowOf s).tokens.map (·.shift n), s.state⟩ := by
  simp only [rowOf, Scan.onTop, onTop, List.reverse_append, List.map_reverse]

end CodeEditing.Lexing
