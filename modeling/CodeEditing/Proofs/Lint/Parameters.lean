import CodeEditing.Proofs.Lint.Nested
import CodeEditing.Text.Blank
import Mathlib.Data.List.Infix
import Mathlib.Data.List.TakeWhile

/-! Brackets outside of parameter lists.

A parenthesis opens a parameter list when an arrow follows the next closing parenthesis. Brackets in a
list, and the parentheses around it, do not stand outside (`outside`); a list ends at the first closing
parenthesis, so a parenthesis before it that is in a list opens no other. Where lists are well nested
in themselves (`ListsNested`), it makes no difference whether they are counted
(`wellNested_outside_iff`). -/
namespace CodeEditing.Lint

def brackets : List Char := ['(', ')', '[', ']', '\x7b', '\x7d']

/-- The brackets of a line. -/
def bracketsOf (cs : List Char) : List Char := cs.filter brackets.contains

/-- Whether an arrow comes next, behind blanks. -/
def arrowAhead (cs : List Char) : Bool :=
  match Text.trimStart cs with
  | c :: '>' :: _ => c == '-' || c == '='
  | _ => false

/-- Whether a parameter list comes next. -/
def listAhead : List Char → Bool
  | '(' :: cs =>
    match cs.dropWhile (· != ')') with
    | [] => false
    | _ :: behind => arrowAhead behind
  | _ => false

/-- The brackets of what is left of a line, outside of parameter lists. -/
def outsideFrom (inList : Bool) : List Char → List Char
  | [] => []
  | c :: cs =>
    if inList then outsideFrom (c != ')') cs
    else if listAhead (c :: cs) then outsideFrom true cs
    else if brackets.contains c then c :: outsideFrom false cs
    else outsideFrom false cs

/-- The brackets of a line that stand outside of parameter lists. -/
def outside (cs : List Char) : List Char := outsideFrom false cs

/-! ### Lists ahead -/

theorem arrowAhead_iff {cs : List Char} : arrowAhead cs = true ↔
    ∃ blanks c more, cs = blanks ++ c :: '>' :: more ∧ (∀ b ∈ blanks, Text.isBlank b = true) ∧
      (c = '-' ∨ c = '=') := by
  constructor
  · intro h
    unfold arrowAhead at h
    split at h
    · next c more hcs =>
      refine ⟨cs.takeWhile Text.isBlank, c, more, ?_, fun b hb => List.mem_takeWhile_imp hb, ?_⟩
      · rw [← hcs, Text.takeWhile_append_trimStart]
      · simpa using h
    · exact nomatch h
  · rintro ⟨blanks, c, more, rfl, hblank, hc⟩
    have hnot : Text.isBlank c = false := by
      obtain rfl | rfl := hc
      all_goals decide
    have htrim : Text.trimStart (blanks ++ c :: '>' :: more) = c :: '>' :: more := by
      rw [Text.trimStart, List.dropWhile_append_of_pos hblank,
        List.dropWhile_cons_of_neg (by rw [hnot]; decide)]
    unfold arrowAhead
    rw [htrim]
    simpa using hc

theorem listAhead_iff {cs : List Char} : listAhead cs = true ↔
    ∃ inner behind, cs = '(' :: (inner ++ ')' :: behind) ∧ ')' ∉ inner ∧
      arrowAhead behind = true := by
  constructor
  · intro h
    unfold listAhead at h
    split at h
    · next cs =>
      split at h
      · exact nomatch h
      · next c behind hdrop =>
        have hc : c = ')' := by
          have hne : cs.dropWhile (· != ')') ≠ [] := by rw [hdrop]; exact nofun
          have := List.head_dropWhile_not (· != ')') hne
          simpa [hdrop] using this
        subst hc
        refine ⟨cs.takeWhile (· != ')'), behind, ?_, fun hin => ?_, h⟩
        · rw [← hdrop, List.takeWhile_append_dropWhile]
        · have := List.mem_takeWhile_imp hin
          simp at this
    · exact nomatch h
  · rintro ⟨inner, behind, rfl, hin, harrow⟩
    have hne : ∀ c ∈ inner, (c != ')') = true := fun c hc => bne_iff_ne.2 fun he => hin (he ▸ hc)
    have hdrop : (inner ++ ')' :: behind).dropWhile (· != ')') = ')' :: behind := by
      rw [List.dropWhile_append_of_pos hne, List.dropWhile_cons_of_neg (by decide)]
    unfold listAhead
    simp only [hdrop]
    exact harrow

theorem not_listAhead {c : Char} {cs : List Char} (h : c ≠ '(') : listAhead (c :: cs) = false := by
  cases hl : listAhead (c :: cs) with
  | false => rfl
  | true =>
    obtain ⟨inner, behind, he, -⟩ := listAhead_iff.1 hl
    exact absurd (List.cons.inj he).1 h

/-! ### What stands outside -/

theorem outsideFrom_list {inner behind : List Char} (h : ')' ∉ inner) :
    outsideFrom true (inner ++ ')' :: behind) = outside behind := by
  induction inner with
  | nil => rfl
  | cons c cs ih =>
    have hne : (c != ')') = true := bne_iff_ne.2 fun he => h (he ▸ List.mem_cons_self)
    rw [List.cons_append, outsideFrom, if_pos rfl, hne]
    exact ih fun hcs => h (List.mem_cons_of_mem c hcs)

/-- A parameter list does not stand outside. -/
theorem outside_list {inner behind : List Char} (h : ')' ∉ inner)
    (ha : arrowAhead behind = true) :
    outside ('(' :: (inner ++ ')' :: behind)) = outside behind := by
  have hlist : listAhead ('(' :: (inner ++ ')' :: behind)) = true :=
    listAhead_iff.2 ⟨inner, behind, rfl, h, ha⟩
  rw [outside, outsideFrom, if_neg nofun, if_pos hlist, outsideFrom_list h]

/-- A bracket that opens no parameter list does. -/
theorem outside_bracket {c : Char} {cs : List Char} (hl : listAhead (c :: cs) = false)
    (hc : c ∈ brackets) : outside (c :: cs) = c :: outside cs := by
  rw [outside, outsideFrom, if_neg nofun, if_neg (by rw [hl]; nofun),
    if_pos (List.contains_iff_mem.2 hc), outside]

theorem outside_cons {c : Char} {cs : List Char} (hc : c ∉ brackets) :
    outside (c :: cs) = outside cs := by
  have hne : c ≠ '(' := fun he => hc (he ▸ List.mem_cons_self)
  rw [outside, outsideFrom, if_neg nofun, if_neg (by rw [not_listAhead hne]; nofun),
    if_neg (fun h => hc (List.contains_iff_mem.1 h)), outside]

theorem outside_append {front cs : List Char} (h : ∀ c ∈ front, c ∉ brackets) :
    outside (front ++ cs) = outside cs := by
  induction front with
  | nil => rfl
  | cons c front ih =>
    rw [List.cons_append, outside_cons (h c List.mem_cons_self)]
    exact ih fun d hd => h d (List.mem_cons_of_mem c hd)

/-! ### Lists that are well nested -/

/-- The brackets between the parentheses of every parameter list are well nested. -/
def ListsNested (line : List Char) : Prop :=
  ∀ cs ∈ line.tails, listAhead cs = true →
    WellNested (bracketsOf (cs.tail.takeWhile (· != ')')))

instance (line : List Char) : Decidable (ListsNested line) :=
  inferInstanceAs (Decidable (∀ cs ∈ line.tails, listAhead cs = true →
    WellNested (bracketsOf (cs.tail.takeWhile (· != ')')))))

theorem ListsNested.drop (front : List Char) {cs : List Char} (h : ListsNested (front ++ cs)) :
    ListsNested cs := by
  intro tail htail
  refine h tail ((List.mem_tails ..).2 ?_)
  exact ((List.mem_tails ..).1 htail).trans (List.suffix_append front cs)

theorem ListsNested.list {inner behind : List Char}
    (h : ListsNested ('(' :: (inner ++ ')' :: behind))) (hin : ')' ∉ inner)
    (ha : arrowAhead behind = true) : WellNested (bracketsOf inner) := by
  have hne : ∀ c ∈ inner, (c != ')') = true := fun c hc => bne_iff_ne.2 fun he => hin (he ▸ hc)
  have := h _ ((List.mem_tails ..).2 (List.suffix_refl _))
    (listAhead_iff.2 ⟨inner, behind, rfl, hin, ha⟩)
  rwa [List.tail_cons, List.takeWhile_append_of_pos hne,
    List.takeWhile_cons_of_neg (by decide), List.append_nil] at this

/-- Lists that are well nested make no difference. -/
theorem settles_outside {line : List Char} (h : ListsNested line) (waiting rest : List Char) :
    settles waiting (outside line ++ rest) = settles waiting (bracketsOf line ++ rest) := by
  -- The rest behind a list is no tail in one step, so the induction is on the length.
  induction hn : line.length using Nat.strong_induction_on generalizing line waiting with
  | _ n ih =>
  subst hn
  cases line with
  | nil => rfl
  | cons c cs =>
    cases hl : listAhead (c :: cs) with
    | true =>
      obtain ⟨inner, behind, he, hin, ha⟩ := listAhead_iff.1 hl
      rw [he] at h ih ⊢
      have hpair : WellNested (bracketsOf ('(' :: inner ++ [')'])) := by
        rw [bracketsOf, List.filter_append]
        exact .wrap rfl (h.list hin ha) .nil
      have hb : bracketsOf ('(' :: (inner ++ ')' :: behind)) =
          bracketsOf ('(' :: inner ++ [')']) ++ bracketsOf behind := by
        rw [bracketsOf, bracketsOf, bracketsOf, ← List.filter_append]
        simp
      have hdrop : ListsNested behind :=
        ListsNested.drop ('(' :: inner ++ [')']) (by simpa using h)
      rw [outside_list hin ha, hb, List.append_assoc, settles_append hpair]
      exact ih behind.length (by simp; omega) hdrop waiting rfl
    | false =>
      have htail : ListsNested cs := ListsNested.drop [c] h
      have hcs := fun waiting => ih cs.length (Nat.lt_succ_self _) htail waiting rfl
      by_cases hc : c ∈ brackets
      · rw [outside_bracket hl hc, bracketsOf,
          List.filter_cons_of_pos (List.contains_iff_mem.2 hc)]
        exact settles_congr hcs waiting [c]
      · rw [outside_cons hc, bracketsOf,
          List.filter_cons_of_neg (fun h => hc (List.contains_iff_mem.1 h))]
        exact hcs waiting

/-- Whether parameter lists count makes no difference where they are well nested. -/
theorem wellNested_outside_iff {lines : List (List Char)}
    (h : ∀ line ∈ lines, ListsNested line) :
    WellNested (lines.flatMap outside) ↔ WellNested (lines.flatMap bracketsOf) := by
  have hall : ∀ waiting, settles waiting (lines.flatMap outside) =
      settles waiting (lines.flatMap bracketsOf) := by
    induction lines with
    | nil => exact fun _ => rfl
    | cons line lines ih =>
      intro waiting
      have hmore := ih fun l hl => h l (List.mem_cons_of_mem line hl)
      rw [List.flatMap_cons, List.flatMap_cons, settles_outside (h line List.mem_cons_self)]
      exact settles_congr hmore waiting (bracketsOf line)
  rw [← settles_nil_iff, ← settles_nil_iff, hall]

end CodeEditing.Lint
