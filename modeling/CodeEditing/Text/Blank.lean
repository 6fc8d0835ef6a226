/-! Blank characters, and lines without them at their ends.

Blank is the white space of every script: the five ASCII controls from tab to carriage return,
the space, the next-line sign, the no-break space and the wider spaces and separators beyond
ASCII. `trimStart_eq_self_iff` says when a line has none in front. -/
namespace CodeEditing.Text

/-- White space of any script. -/
def isBlank (c : Char) : Bool :=
  let n := c.toNat
  (9 ≤ n && n ≤ 13) || n == 32 || n == 0x85 || n == 0xa0 || n == 0x1680 ||
    (0x2000 ≤ n && n ≤ 0x200a) || n == 0x2028 || n == 0x2029 || n == 0x202f || n == 0x205f ||
    n == 0x3000

/-- A line without the blanks in front. -/
def trimStart (cs : List Char) : List Char := cs.dropWhile isBlank

/-- A line without the blanks behind. -/
def trimEnd (cs : List Char) : List Char := (cs.reverse.dropWhile isBlank).reverse

/-- A line without the blanks at either end. -/
def trim (cs : List Char) : List Char := trimEnd (trimStart cs)

/-- A line of blanks alone, or an empty one. -/
def allBlank (cs : List Char) : Bool := cs.all isBlank

/-- A text is cut where its characters stop to have a property. -/
theorem cut_append {p : Char → Bool} {front back : List Char} (hfront : ∀ c ∈ front, p c = true)
    (hback : ∀ c ∈ back.head?, p c = false) :
    (front ++ back).takeWhile p = front ∧ (front ++ back).dropWhile p = back := by
  rw [List.takeWhile_append_of_pos hfront, List.dropWhile_append_of_pos hfront]
  cases back with
  | nil => exact ⟨List.append_nil front, rfl⟩
  | cons c back =>
    have hc : ¬p c = true := Bool.eq_false_iff.1 (hback c rfl)
    rw [List.takeWhile_cons_of_neg hc, List.dropWhile_cons_of_neg hc, List.append_nil]
    exact ⟨rfl, rfl⟩

theorem takeWhile_append_trimStart (cs : List Char) :
    cs.takeWhile isBlank ++ trimStart cs = cs :=
  List.takeWhile_append_dropWhile

theorem trimStart_eq_nil_iff (cs : List Char) : trimStart cs = [] ↔ allBlank cs = true := by
  induction cs with
  | nil => simp [trimStart, allBlank]
  | cons c cs ih =>
    by_cases h : isBlank c = true
    · have hc : trimStart (c :: cs) = trimStart cs := List.dropWhile_cons_of_pos h
      rw [hc, ih, allBlank, allBlank, List.all_cons, h, Bool.true_and]
    · simp [trimStart, allBlank, h]

theorem trimStart_eq_self_iff (cs : List Char) :
    trimStart cs = cs ↔ ∀ c ∈ cs.head?, isBlank c = false := by
  cases cs with
  | nil => simp [trimStart]
  | cons c cs =>
    by_cases h : isBlank c = true
    · have hlt : (cs.dropWhile isBlank).length < (c :: cs).length := by
        have := (List.dropWhile_sublist isBlank (l := cs)).length_le
        simp only [List.length_cons]; omega
      simp only [trimStart, List.dropWhile_cons, h, if_true, List.head?_cons, Option.mem_def,
        Option.some.injEq, forall_eq', Bool.true_eq_false, iff_false]
      intro he
      rw [he] at hlt
      exact Nat.lt_irrefl _ hlt
    · simp [trimStart, h]

end CodeEditing.Text
