/-! Finding a word in a line. -/
namespace CodeEditing.Text

/-- How many characters lie before the first occurrence of a word. -/
def firstIndexOf (word : List Char) : List Char → Option Nat
  | [] => if word.isEmpty then some 0 else none
  | c :: cs =>
    if word.isPrefixOf (c :: cs) then some 0 else (firstIndexOf word cs).map (· + 1)

/-- How many characters lie before the last occurrence of a word. -/
def lastIndexOf (word : List Char) : List Char → Option Nat
  | [] => if word.isEmpty then some 0 else none
  | c :: cs =>
    match lastIndexOf word cs with
    | some n => some (n + 1)
    | none => if word.isPrefixOf (c :: cs) then some 0 else none

theorem drop_lastIndexOf {word cs : List Char} {n : Nat} (h : lastIndexOf word cs = some n) :
    word <+: cs.drop n := by
  induction cs generalizing n with
  | nil =>
    rw [lastIndexOf] at h
    split at h
    · next hw => simp_all
    · simp at h
  | cons c cs ih =>
    rw [lastIndexOf] at h
    split at h
    · next m hm => simp only [Option.some.injEq] at h; subst h; simpa using ih hm
    · split at h
      · next hw => simp only [Option.some.injEq] at h; subst h; exact List.isPrefixOf_iff_prefix.1 hw
      · simp at h

theorem lastIndexOf_eq_none {word cs : List Char} (h : ¬word <:+: cs) :
    lastIndexOf word cs = none := by
  refine Option.eq_none_iff_forall_ne_some.2 fun n hn => h ?_
  exact (drop_lastIndexOf hn).isInfix.trans (List.drop_suffix n cs).isInfix

/-- What occurs last in the rest of a line occurs last in the line. -/
theorem lastIndexOf_append {word a b : List Char} {n : Nat} (h : lastIndexOf word b = some n) :
    lastIndexOf word (a ++ b) = some (a.length + n) := by
  induction a with
  | nil => rw [List.nil_append, h, List.length_nil, Nat.zero_add]
  | cons c cs ih =>
    rw [List.cons_append, lastIndexOf, ih, List.length_cons, Nat.add_right_comm]

end CodeEditing.Text
