import CodeEditing.Proofs.Lint.Bounds
import CodeEditing.Proofs.Lint.Tokens

/-! The first fault in brackets.

Where brackets have been read and none has been at fault, those that wait for their partner are the
opening ones with something well nested between them (`Waits`), so they can all still be closed
(`Waits.extendable`). A closing bracket that is not the one the last of them waits for makes this
impossible, whatever comes behind (`Waits.not_extendable`). So the fault is where the brackets up to
there cannot be made well nested any more (`faultIn_seekFault`); if there is none like that, the earliest
that waits is the first without a partner (`Waits.first`). -/
namespace CodeEditing.Lint

open Document (Cell Line Remark closerOf? openerOf? charAt?)

/-! ### What can still be well nested -/

/-- Something behind these characters makes them well nested. -/
def Extendable (cs : List Char) : Prop := ∃ more, WellNested (cs ++ more)

/-- An opening bracket has its partner in what is behind it. -/
def Closed (o : Char) (behind : List Char) : Prop :=
  ∃ inner c rest, behind = inner ++ c :: rest ∧ closerOf? o = some c ∧ WellNested inner

theorem Extendable.of_append {a b : List Char} (h : Extendable (a ++ b)) : Extendable a := by
  obtain ⟨more, hmore⟩ := h
  exact ⟨b ++ more, by rwa [← List.append_assoc]⟩

theorem Closed.append {o : Char} {behind : List Char} (h : Closed o behind) (more : List Char) :
    Closed o (behind ++ more) := by
  obtain ⟨inner, c, rest, rfl, hc, hinner⟩ := h
  exact ⟨inner, c, rest ++ more, by simp, hc, hinner⟩

/-- Where the partner of an opening bracket is, nothing can be made good without that bracket. -/
theorem Closed.not_extendable {o : Char} {behind : List Char} (h : Closed o behind) :
    ¬Extendable behind := by
  obtain ⟨inner, c, rest, rfl, hc, hinner⟩ := h
  rintro ⟨more, hmore⟩
  rw [← settles_nil_iff, List.append_assoc, settles_append hinner, List.cons_append,
    settles_stray (closerOf?_closer hc)] at hmore
  exact nomatch hmore

/-- What is behind closes all that is still open then. -/
theorem exists_settles_behind {waiting a b : List Char} (h : settles waiting (a ++ b) = true) :
    ∃ waiting, settles waiting b = true := by
  induction a generalizing waiting with
  | nil => exact ⟨waiting, h⟩
  | cons c a ih =>
    rw [List.cons_append] at h
    cases hc : closerOf? c with
    | some closer =>
      rw [settles_open hc] at h
      exact ih h
    | none =>
      cases waiting with
      | nil =>
        rw [settles_stray hc] at h
        exact nomatch h
      | cons w ws =>
        rw [settles_close hc] at h
        exact ih (Bool.and_eq_true_iff.1 h).2

/-- Every opening bracket of what is well nested has its partner there. -/
theorem WellNested.closed {a b : List Char} {o k : Char} (h : WellNested (a ++ o :: b))
    (hk : closerOf? o = some k) : Closed o b := by
  obtain ⟨waiting, hbehind⟩ := exists_settles_behind (settles_nil_iff.2 h)
  rw [settles_open hk] at hbehind
  cases settled_of_settles hbehind with
  | @cons _ _ inner rest hinner _ => exact ⟨inner, k, rest, rfl, hk, hinner⟩

/-! ### Brackets that wait -/

/-- The characters of cells. -/
def chars (cells : List Cell) : List Char := cells.map Cell.char

@[simp] theorem chars_append (a b : List Cell) : chars (a ++ b) = chars a ++ chars b :=
  List.map_append

@[simp] theorem chars_cons (x : Cell) (cells : List Cell) : chars (x :: cells) = x.char :: chars cells :=
  rfl

/-- What has been read without a fault is well nested but for the brackets that wait for their partner,
the latest first. -/
inductive Waits : List Cell → List (Cell × Char) → Prop
  | nil {cells : List Cell} (h : WellNested (chars cells)) : Waits cells []
  | cons {front inner : List Cell} {o : Cell} {k : Char} {opened : List (Cell × Char)}
    (h : Waits front opened) (hk : closerOf? o.char = some k) (hi : WellNested (chars inner)) :
    Waits (front ++ o :: inner) ((o, k) :: opened)

namespace Waits
variable {cells front : List Cell} {opened : List (Cell × Char)} {x o : Cell} {k : Char}

theorem wellNested (h : Waits cells []) : WellNested (chars cells) := by
  cases h with
  | nil h => exact h

theorem append {inner : List Cell} (h : Waits cells opened) (hi : WellNested (chars inner)) :
    Waits (cells ++ inner) opened := by
  cases h with
  | nil h => exact .nil (by simpa using h.append hi)
  | @cons front between o k opened h hk hbetween =>
    rw [List.append_assoc, List.cons_append]
    exact .cons h hk (by simpa using hbetween.append hi)

theorem openWith (h : Waits cells opened) (hk : closerOf? x.char = some k) :
    Waits (cells ++ [x]) ((x, k) :: opened) := .cons h hk .nil

theorem closeWith (h : Waits cells ((o, x.char) :: opened)) : Waits (cells ++ [x]) opened := by
  cases h with
  | @cons front inner _ _ _ h hk hi =>
    have hpair : WellNested (chars (o :: (inner ++ [x]))) := by
      simpa [chars] using WellNested.wrap hk hi .nil
    simpa using h.append hpair

/-- Reading on from what waits is reading all of it. -/
theorem settles_eq (h : Waits cells opened) (rest : List Char) :
    settles [] (chars cells ++ rest) = settles (opened.map Prod.snd) rest := by
  induction h generalizing rest with
  | nil h => exact settles_append h [] rest
  | cons _ hk hi ih =>
    rw [chars_append, chars_cons, List.append_assoc, List.cons_append, ih, settles_open hk,
      settles_append hi]
    rfl

theorem settles_waiting (h : Waits cells opened) :
    settles (opened.map Prod.snd) (opened.map Prod.snd) = true := by
  induction h with
  | nil => rfl
  | cons _ hk _ ih =>
    rw [List.map_cons, settles_close (closerOf?_closer hk), ih, beq_self_eq_true]
    rfl

/-- What waits can be closed. -/
theorem extendable (h : Waits cells opened) : Extendable (chars cells) :=
  ⟨opened.map Prod.snd, settles_nil_iff.1 ((h.settles_eq _).trans h.settles_waiting)⟩

/-- What waits can not be closed behind a closing bracket of which the last does not wait. -/
theorem not_extendable (h : Waits cells opened) (hx : closerOf? x.char = none)
    (hne : ∀ p ∈ opened.head?, p.2 ≠ x.char) (rest : List Cell) :
    ¬Extendable (chars (cells ++ x :: rest)) := by
  rintro ⟨more, hmore⟩
  rw [← settles_nil_iff, chars_append, List.append_assoc, h.settles_eq, chars_cons,
    List.cons_append] at hmore
  cases opened with
  | nil =>
    rw [List.map_nil, settles_stray hx] at hmore
    exact nomatch hmore
  | cons p opened =>
    rw [List.map_cons, settles_close hx] at hmore
    exact hne p rfl (eq_of_beq (Bool.and_eq_true_iff.1 hmore).1)

/-- The bracket that waits first has no partner, and those before it are well nested. -/
theorem first (h : Waits cells opened) (hlast : opened.getLast? = some (o, k)) :
    ∃ a b, cells = a ++ o :: b ∧ closerOf? o.char = some k ∧ WellNested (chars a) ∧
      ¬Closed o.char (chars b) := by
  -- without it, what is behind it waits as before, and could be closed; with its partner it could not
  have hsplit : ∃ a b more, cells = a ++ o :: b ∧ closerOf? o.char = some k ∧
      WellNested (chars a) ∧ Waits b more := by
    induction h with
    | nil => exact nomatch hlast
    | @cons front inner o' k' opened h hk hi ih =>
      cases opened with
      | nil =>
        obtain ⟨rfl, rfl⟩ := Prod.mk.inj (Option.some.inj hlast)
        exact ⟨front, inner, [], rfl, hk, h.wellNested, .nil hi⟩
      | cons p opened =>
        obtain ⟨a, b, more, rfl, ho, ha, hb⟩ := ih hlast
        exact ⟨a, b ++ o' :: inner, (o', k') :: more, by simp, ho, ha, .cons hb hk hi⟩
  obtain ⟨a, b, more, hcells, ho, ha, hb⟩ := hsplit
  exact ⟨a, b, hcells, ho, ha, fun hclosed => hclosed.not_extendable hb.extendable⟩

end Waits

/-! ### The fault that is found -/

/-- How brackets are at fault: one that closes comes up where none waits, or where the last that waits
has another partner; or all are read, and the first of those that wait, if any, is never closed. -/
inductive FaultIn (cells : List Cell) : Option BracketFault → Prop
  | unmatched {front rest : List Cell} {x : Cell} (split : cells = front ++ x :: rest)
    (read : Waits front []) (closes : closerOf? x.char = none) :
    FaultIn cells (some (.unmatched x))
  | mismatched {front rest : List Cell} {x o : Cell} {k : Char} {opened : List (Cell × Char)}
    (split : cells = front ++ x :: rest) (read : Waits front ((o, k) :: opened))
    (closes : closerOf? x.char = none) (ne : k ≠ x.char) : FaultIn cells (some (.mismatched k x))
  | unclosed {opened : List (Cell × Char)} (read : Waits cells opened) :
    FaultIn cells (opened.getLast?.map fun (o, k) => .unclosed o k)

/-- What is found when brackets are read on is how they are at fault. -/
theorem faultIn_seekFault {front cells : List Cell} {opened : List (Cell × Char)}
    (h : Waits front opened) : FaultIn (front ++ cells) (seekFault opened cells) := by
  induction cells generalizing front opened with
  | nil =>
    rw [List.append_nil]
    exact .unclosed h
  | cons x cells ih =>
    rw [seekFault.eq_def]
    cases hx : closerOf? x.char with
    | some k =>
      simp only [hx]
      rw [List.append_cons]
      exact ih (h.openWith hx)
    | none =>
      cases opened with
      | nil =>
        simp only [hx]
        exact .unmatched rfl h hx
      | cons p opened =>
        obtain ⟨o, k⟩ := p
        simp only [hx]
        by_cases hk : k = x.char
        · subst hk
          rw [if_pos rfl, List.append_cons]
          exact ih h.closeWith
        · rw [if_neg hk]
          exact .mismatched rfl h hx hk

namespace FaultIn
variable {cells : List Cell} {fault : Option BracketFault}

/-- Where brackets cannot be made well nested, the fault is the bracket from which on they cannot. -/
theorem of_not_extendable (h : FaultIn cells fault) (hbad : ¬Extendable (chars cells)) :
    ∃ front x rest, cells = front ++ x :: rest ∧ closerOf? x.char = none ∧
      Extendable (chars front) ∧ ¬Extendable (chars (front ++ [x])) ∧
      ((WellNested (chars front) ∧ fault = some (.unmatched x)) ∨
        ∃ a o inner k, front = a ++ o :: inner ∧ closerOf? o.char = some k ∧
          WellNested (chars inner) ∧ fault = some (.mismatched k x)) := by
  cases h with
  | @unmatched front rest x split read closes =>
    exact ⟨front, x, rest, split, closes, read.extendable, read.not_extendable closes nofun [],
      .inl ⟨read.wellNested, rfl⟩⟩
  | @mismatched front rest x o k opened split read closes ne =>
    have hne : ∀ p ∈ ((o, k) :: opened).head?, p.2 ≠ x.char := by
      rintro p ⟨⟩
      exact ne
    refine ⟨front, x, rest, split, closes, read.extendable, read.not_extendable closes hne [], ?_⟩
    cases read with
    | @cons a inner _ _ _ _ hk hi => exact .inr ⟨a, o, inner, k, rfl, hk, hi, rfl⟩
  | unclosed read => exact absurd read.extendable hbad

/-- Where they can but are not, the fault is the first bracket that has no partner. -/
theorem of_extendable (h : FaultIn cells fault) (hgood : Extendable (chars cells))
    (hopen : ¬WellNested (chars cells)) :
    ∃ a o b k, cells = a ++ o :: b ∧ closerOf? o.char = some k ∧ WellNested (chars a) ∧
      ¬Closed o.char (chars b) ∧ fault = some (.unclosed o k) := by
  cases h with
  | unmatched split read closes =>
    subst split
    exact absurd hgood (read.not_extendable closes nofun _)
  | mismatched split read closes ne =>
    subst split
    refine absurd hgood (read.not_extendable closes ?_ _)
    rintro p ⟨⟩
    exact ne
  | @unclosed opened read =>
    cases hlast : opened.getLast? with
    | none =>
      obtain rfl := List.getLast?_eq_none_iff.1 hlast
      exact absurd read.wellNested hopen
    | some p =>
      obtain ⟨o, k⟩ := p
      obtain ⟨a, b, hcells, hk, ha, hnone⟩ := read.first hlast
      exact ⟨a, o, b, k, hcells, hk, ha, hnone, rfl⟩

end FaultIn

/-! ### The remark -/

theorem charAt?_of_standsIn {lines : List Line} {x : Cell} (h : StandsIn lines x) :
    charAt? lines x.at_ = some x.char := by
  obtain ⟨a, b, hrow, hcolumn⟩ := h
  have hat : x.at_ = ⟨x.at_.row, Text.width a⟩ := by rw [← hcolumn]
  rw [hat, Document.charAt?_width hrow]
  rfl

theorem openerOf?_isSome {c : Char} (h : c ∈ brackets) (hc : closerOf? c = none) :
    (openerOf? c).isSome = true := by
  simp only [brackets, List.mem_cons, List.not_mem_nil, or_false] at h
  obtain rfl | rfl | rfl | rfl | rfl | rfl := h
  all_goals first | rfl | exact absurd hc (by decide)

/-- **The first fault of a text.** The brackets found in a text are brackets, each a character of its row
at its column, and no fault is found exactly where they are well nested. Where some of the first of them
cannot be made well nested any more, the fault is the closing bracket at which this is so for the first
time: nothing is open there, or the innermost that is open has another partner. Where all of the first of
them can be, the fault is the earliest opening bracket that has no partner. -/
theorem checkBrackets_first (lines : List Line) :
    let found := bracketCells lines
    (∀ x ∈ found, x.char ∈ brackets ∧ charAt? lines x.at_ = some x.char) ∧
    (checkBrackets lines = none ↔ WellNested (chars found)) ∧
    ((∃ bad, bad <+: found ∧ ¬Extendable (chars bad)) →
      ∃ front x, front ++ [x] <+: found ∧ ¬Extendable (chars (front ++ [x])) ∧
        (∀ shorter, shorter <+: front → Extendable (chars shorter)) ∧ (openerOf? x.char).isSome ∧
        ((WellNested (chars front) ∧ checkBrackets lines =
            some ⟨x.at_.row, x.at_.column, s!"unmatched '{x.char}'", .error⟩) ∨
          ∃ a o inner k, front = a ++ o :: inner ∧ closerOf? o.char = some k ∧
            WellNested (chars inner) ∧ checkBrackets lines =
              some ⟨x.at_.row, x.at_.column, s!"expected '{k}' but found '{x.char}'", .error⟩)) ∧
    ((∀ front, front <+: found → Extendable (chars front)) → ¬WellNested (chars found) →
      ∃ a o b k, found = a ++ o :: b ∧ closerOf? o.char = some k ∧ ¬Closed o.char (chars b) ∧
        (∀ c p d, a = c ++ p :: d → (closerOf? p.char).isSome → Closed p.char (chars (d ++ o :: b))) ∧
        checkBrackets lines = some ⟨o.at_.row, o.at_.column,
          s!"'{o.char}' is never closed, expected '{k}'", .error⟩) := by
  intro found
  have hfault : FaultIn found (bracketFault lines) := @faultIn_seekFault [] found [] (.nil .nil)
  have hremark : ∀ {fault}, bracketFault lines = some fault → checkBrackets lines = some fault.remark :=
    fun h => congrArg (Option.map BracketFault.remark) h
  refine ⟨fun x hx => ⟨mem_brackets_of_mem hx, charAt?_of_standsIn (mem_bracketCells hx)⟩, ?_, ?_, ?_⟩
  · rw [checkBrackets, Option.map_eq_none_iff, bracketFault, seekFault_eq_none_iff]
    rfl
  · rintro ⟨bad, ⟨rest, hbad⟩, hstuck⟩
    have hall : ¬Extendable (chars found) := fun h => by
      rw [← hbad, chars_append] at h
      exact hstuck h.of_append
    obtain ⟨front, x, rest, hsplit, hcloses, hfront, hx, hcases⟩ := hfault.of_not_extendable hall
    have hmem : x ∈ found := hsplit ▸ List.mem_append_right front List.mem_cons_self
    refine ⟨front, x, ⟨rest, by rw [hsplit, ← List.append_cons]⟩, hx, ?_,
      openerOf?_isSome (mem_brackets_of_mem hmem) hcloses, ?_⟩
    · rintro shorter ⟨more, rfl⟩
      rw [chars_append] at hfront
      exact hfront.of_append
    · rcases hcases with ⟨hnested, heq⟩ | ⟨a, o, inner, k, hopen, hk, hinner, heq⟩
      · exact .inl ⟨hnested, hremark heq⟩
      · exact .inr ⟨a, o, inner, k, hopen, hk, hinner, hremark heq⟩
  · intro hgood hopen
    obtain ⟨a, o, b, k, hsplit, hk, ha, hnone, heq⟩ :=
      hfault.of_extendable (hgood found List.prefix_rfl) hopen
    refine ⟨a, o, b, k, hsplit, hk, hnone, ?_, hremark heq⟩
    rintro c p d rfl hp
    obtain ⟨q, hq⟩ := Option.isSome_iff_exists.1 hp
    rw [chars_append, chars_cons] at ha
    rw [chars_append]
    exact (ha.closed hq).append _

/-- A bracket that another one closes, and one that is left open around a pair. -/
theorem checkBrackets_first_open :
    checkBrackets ["f(x]".toList] = some ⟨0, 3, "expected ')' but found ']'", .error⟩ ∧
    checkBrackets ["[(x)".toList] = some ⟨0, 0, "'[' is never closed, expected ']'", .error⟩ := by
  constructor
  · have hchars : chars (bracketCells ["f(x]".toList]) = ['(', ']'] :=
      (chars_bracketCells (by decide)).trans (by decide)
    have hstuck : ¬Extendable ['(', ']'] := fun ⟨_, h⟩ => nomatch settles_nil_iff.2 h
    have hcells : ∀ x ∈ Document.cellsFrom 0 ["f(x]".toList], (openerOf? x.char).isSome →
        x = ⟨⟨0, 3⟩, ']'⟩ := by decide
    obtain ⟨hstands, -, hbad, -⟩ := checkBrackets_first ["f(x]".toList]
    obtain ⟨front, x, ⟨rest, hsplit⟩, -, -, hcloses, hcases⟩ :=
      hbad ⟨_, List.prefix_rfl, hchars.symm ▸ hstuck⟩
    rw [← hsplit] at hstands hchars
    obtain rfl := hcells x (Document.mem_cellsFrom_iff.2 (hstands x (by simp)).2) hcloses
    simp only [chars_append, chars_cons, List.append_assoc, List.singleton_append] at hchars
    obtain ⟨hfront, -⟩ := (List.append_cons_inj_of_notMem (by decide) (by decide)).1
      (show ['('] ++ [']'] = chars front ++ ']' :: chars rest from hchars.symm)
    rcases hcases with ⟨hnested, -⟩ | ⟨a, o, inner, k, hopen, hk, -, heq⟩
    · exact absurd (hfront ▸ hnested) (by decide)
    · have ho : o.char ∈ ['('] := by
        rw [hfront, hopen]
        simp
      rw [List.mem_singleton.1 ho] at hk
      obtain rfl := Option.some.inj hk
      exact heq
  · have hchars : chars (bracketCells ["[(x)".toList]) = ['[', '(', ')'] :=
      (chars_bracketCells (by decide)).trans (by decide)
    have hgood : ∀ front, front <+: bracketCells ["[(x)".toList] → Extendable (chars front) := by
      rintro front ⟨rest, hsplit⟩
      rw [← hsplit, chars_append] at hchars
      exact Extendable.of_append (b := chars rest) (hchars ▸ ⟨[']'], by decide⟩)
    have hcells : ∀ x ∈ Document.cellsFrom 0 ["[(x)".toList], (closerOf? x.char).isSome →
        x = ⟨⟨0, 0⟩, '['⟩ ∨ x = ⟨⟨0, 1⟩, '('⟩ := by decide
    obtain ⟨hstands, -, -, hopen⟩ := checkBrackets_first ["[(x)".toList]
    obtain ⟨a, o, b, k, hsplit, hk, hnone, -, heq⟩ := hopen hgood (hchars ▸ by decide)
    rw [hsplit] at hstands hchars
    have hat := Document.mem_cellsFrom_iff.2 (hstands o (by simp)).2
    rcases hcells o hat (Option.isSome_of_eq_some hk) with rfl | rfl
    · obtain rfl := Option.some.inj hk
      exact heq
    · rw [chars_append, chars_cons] at hchars
      obtain ⟨-, -, hb⟩ := (List.append_cons_inj_of_notMem (by decide) (by decide)).1
        (show ['['] ++ '(' :: [')'] = chars a ++ '(' :: chars b from hchars.symm)
      exact absurd ⟨[], ')', [], hb.symm, rfl, .nil⟩ hnone

end CodeEditing.Lint
