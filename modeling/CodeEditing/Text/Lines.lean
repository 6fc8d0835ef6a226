/-! Lines of a text.

A text is cut at every line feed, so it always has at least one line, and a single carriage return
right before a line feed or at the very end of the text belongs to the line end. Joining puts a
line feed between neighbours. `joinLines_cutAt` says that cutting alone loses nothing, and
`splitLines_joinLines` that lines free of line feeds and carriage returns come back as they were. -/
namespace CodeEditing.Text

/-- The pieces of a text between the occurrences of `sep`; there is always one. -/
def cutAt (sep : Char) : List Char → List (List Char)
  | [] => [[]]
  | c :: cs =>
    match cutAt sep cs with
    | [] => [[c]]
    | piece :: more => if c = sep then [] :: piece :: more else (c :: piece) :: more

theorem cutAt_ne_nil (sep : Char) (cs : List Char) : cutAt sep cs ≠ [] := by
  cases cs with
  | nil => simp [cutAt]
  | cons c cs =>
    simp only [cutAt]
    split
    · simp
    · split <;> simp

/-- A line without one carriage return at its end. -/
def dropReturn : List Char → List Char
  | [] => []
  | ['\r'] => []
  | c :: cs => c :: dropReturn cs

/-- The lines of a text. -/
def splitLines (cs : List Char) : List (List Char) := (cutAt '\n' cs).map dropReturn

/-- Lines put together with a separator between neighbours. -/
def joinWith (sep : Char) : List (List Char) → List Char
  | [] => []
  | [line] => line
  | line :: more => line ++ sep :: joinWith sep more

/-- Lines put together with a line feed between neighbours. -/
def joinLines (lines : List (List Char)) : List Char := joinWith '\n' lines

theorem splitLines_ne_nil (cs : List Char) : splitLines cs ≠ [] := by
  simp [splitLines, cutAt_ne_nil]

@[simp] theorem joinWith_singleton (sep : Char) (line : List Char) :
    joinWith sep [line] = line := rfl

theorem joinWith_cons {sep : Char} {line : List Char} {more : List (List Char)} (h : more ≠ []) :
    joinWith sep (line :: more) = line ++ sep :: joinWith sep more := by
  cases more with
  | nil => exact absurd rfl h
  | cons m ms => rfl

/-- Cutting loses nothing. -/
theorem joinWith_cutAt (sep : Char) (cs : List Char) : joinWith sep (cutAt sep cs) = cs := by
  induction cs with
  | nil => rfl
  | cons c cs ih =>
    simp only [cutAt]
    split
    · next h => exact absurd h (cutAt_ne_nil sep cs)
    · next piece more h =>
      rw [h] at ih
      split
      · next hc => subst hc; rw [joinWith_cons (by simp), ih]; rfl
      · cases more with
        | nil => simpa using ih
        | cons m ms => rw [joinWith_cons (by simp)] at ih ⊢; simp [← ih]

theorem joinLines_cutAt (cs : List Char) : joinLines (cutAt '\n' cs) = cs := joinWith_cutAt _ cs

theorem cutAt_of_not_mem {sep : Char} {cs : List Char} (h : sep ∉ cs) : cutAt sep cs = [cs] := by
  induction cs with
  | nil => rfl
  | cons c cs ih =>
    simp only [List.mem_cons, not_or] at h
    simp [cutAt, ih h.2, Ne.symm h.1]

theorem cutAt_append_cons {sep : Char} {a : List Char} (h : sep ∉ a) (b : List Char) :
    cutAt sep (a ++ sep :: b) = a :: cutAt sep b := by
  induction a with
  | nil =>
    simp only [List.nil_append, cutAt]
    split
    · next he => exact absurd he (cutAt_ne_nil sep b)
    · next he => simp [he]
  | cons c cs ih =>
    simp only [List.mem_cons, not_or] at h
    simp [cutAt, ih h.2, Ne.symm h.1]

/-- Pieces free of the separator come back from the text they are joined to. -/
theorem cutAt_joinWith {sep : Char} {lines : List (List Char)} (hne : lines ≠ [])
    (h : ∀ l ∈ lines, sep ∉ l) : cutAt sep (joinWith sep lines) = lines := by
  induction lines with
  | nil => exact absurd rfl hne
  | cons l ls ih =>
    cases ls with
    | nil => exact cutAt_of_not_mem (h l (by simp))
    | cons m ms =>
      rw [joinWith_cons (by simp), cutAt_append_cons (h l (by simp)),
        ih (by simp) (fun x hx => h x (by simp [hx]))]

/-- No piece holds the separator. -/
theorem not_mem_of_mem_cutAt {sep : Char} {cs l : List Char} (h : l ∈ cutAt sep cs) : sep ∉ l := by
  induction cs generalizing l with
  | nil => simp [cutAt] at h; simp [h]
  | cons c cs ih =>
    simp only [cutAt] at h
    split at h
    · next he => exact absurd he (cutAt_ne_nil sep cs)
    · next piece more he =>
      rw [he] at ih
      split at h
      · simp only [List.mem_cons] at h
        rcases h with rfl | rfl | h
        · simp
        · exact ih (by simp)
        · exact ih (by simp [h])
      · next hc =>
        simp only [List.mem_cons] at h
        rcases h with rfl | h
        · have := ih (List.mem_cons_self ..)
          simp [Ne.symm hc, this]
        · exact ih (by simp [h])

theorem dropReturn_eq_self {l : List Char} (h : l.getLast? ≠ some '\r') : dropReturn l = l := by
  induction l with
  | nil => rfl
  | cons c cs ih =>
    cases cs with
    | nil =>
      have hc : c ≠ '\r' := by simpa using h
      unfold dropReturn
      split <;> simp_all [dropReturn]
    | cons d ds =>
      have := ih (by simpa using h)
      simp [dropReturn, this]

theorem splitLines_joinLines {lines : List (List Char)} (hne : lines ≠ [])
    (h : ∀ l ∈ lines, '\n' ∉ l ∧ '\r' ∉ l) : splitLines (joinLines lines) = lines := by
  rw [splitLines, joinLines, cutAt_joinWith hne fun l hl => (h l hl).1]
  have : ∀ l ∈ lines, dropReturn l = l := fun l hl =>
    dropReturn_eq_self fun hr => (h l hl).2 (List.mem_of_getLast? hr)
  exact (List.map_congr_left this).trans (List.map_id _)

end CodeEditing.Text
