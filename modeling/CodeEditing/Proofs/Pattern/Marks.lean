import CodeEditing.Proofs.Pattern.Ends
import CodeEditing.Text.Find
import Mathlib.Data.List.TakeWhile

/-! Patterns that read up to a mark.

What a text is read up to is told by the text alone: the end of the first occurrence of a word
(`Text.markEnd?`), the first quote that is not one of a pair with a backslash (`Text.quoteEnd?`).
Patterns that say so in their own ways are found to end just there: as few characters as possible in
front of a word (`Pattern.search_mark`), and all that is no quote, in pairs where there is a
backslash, in front of a quote (`Pattern.search_quote`). -/
namespace CodeEditing

/-! ### Marks in a text -/

namespace Text

/-- How many characters there are up to the end of the first occurrence of a word. -/
def markEnd? (word cs : List Char) : Option Nat := (firstIndexOf word cs).map (· + word.length)

/-- How many characters there are up to the first quote, itself included. A backslash and the
character behind it are read as a pair. -/
def quoteEnd? (quote : Char) : List Char → Option Nat
  | [] => none
  | '\\' :: _ :: cs => (quoteEnd? quote cs).map (· + 2)
  | c :: cs => if c = quote then some 1 else (quoteEnd? quote cs).map (· + 1)

/-- The text lies inside of quotes: what closes them is looked for behind it. -/
def Inside (quote : Char) (cs : List Char) : Prop :=
  ∀ rest, quoteEnd? quote (cs ++ rest) = (quoteEnd? quote rest).map (· + cs.length)

theorem markEnd?_cons (word : List Char) (c : Char) (cs : List Char) : markEnd? word (c :: cs) =
    if word.isPrefixOf (c :: cs) then some word.length else (markEnd? word cs).map (· + 1) := by
  rw [markEnd?, markEnd?, firstIndexOf]
  split
  · simp
  · simp only [Option.map_map]
    congr 1
    funext k
    exact Nat.add_right_comm k 1 word.length

/-- A word that does not occur in a text does not occur in the rest of it. -/
theorem markEnd?_drop {word cs : List Char} (h : markEnd? word cs = none) (n : Nat) :
    markEnd? word (cs.drop n) = none := by
  induction n generalizing cs with
  | zero => exact h
  | succ n ih =>
    cases cs with
    | nil => exact h
    | cons c cs =>
      rw [markEnd?_cons] at h
      split at h
      · cases h
      · exact ih (Option.map_eq_none_iff.1 h)

variable {quote : Char}

theorem quoteEnd?_pos {cs : List Char} {k : Nat} (h : quoteEnd? quote cs = some k) : 0 < k := by
  have hmore : ∀ {found : Option Nat} {n : Nat}, found.map (· + (n + 1)) = some k → 0 < k := by
    intro found n h
    obtain ⟨j, -, rfl⟩ := Option.map_eq_some_iff.1 h
    exact Nat.zero_lt_succ _
  rw [quoteEnd?.eq_def] at h
  split at h
  · cases h
  · exact hmore h
  · split at h
    · exact Option.some.inj h ▸ Nat.one_pos
    · exact hmore h

theorem inside_nil : Inside quote [] := fun rest => by simp

theorem Inside.append {a b : List Char} (ha : Inside quote a) (hb : Inside quote b) :
    Inside quote (a ++ b) := by
  intro rest
  rw [List.append_assoc, ha, hb, Option.map_map, List.length_append]
  congr 1
  funext n
  exact (Nat.add_assoc ..).trans (congrArg (n + ·) (Nat.add_comm ..))

theorem inside_pair (c : Char) : Inside quote ['\\', c] := fun _ => rfl

theorem quoteEnd?_plain {c : Char} (hc : c ≠ '\\') (cs : List Char) :
    quoteEnd? quote (c :: cs) = if c = quote then some 1 else (quoteEnd? quote cs).map (· + 1) :=
  quoteEnd?.eq_3 quote c cs fun _ _ h => absurd h hc

theorem inside_plain {cs : List Char} (h : ∀ c ∈ cs, c ≠ '\\' ∧ c ≠ quote) : Inside quote cs := by
  induction cs with
  | nil => exact inside_nil
  | cons c cs ih =>
    have hone : Inside quote [c] := fun rest => by
      obtain ⟨hback, hquote⟩ := h c List.mem_cons_self
      exact (quoteEnd?_plain hback rest).trans (if_neg hquote)
    exact hone.append (ih fun d hd => h d (List.mem_cons_of_mem c hd))

end Text

/-! ### Reading on -/

namespace Spot
variable {s : Spot} {c : Char} {cs : List Char}

theorem nextIn_cons (h : s.rest = c :: cs) (set : CharSet) : s.nextIn set = set.contains c := by
  rw [nextIn, h]

theorem beyond_cons (h : s.rest = c :: cs) : s.beyond = ⟨some c, s.index + 1, cs⟩ := by
  rw [beyond, h]

end Spot

namespace Pattern
variable {s : Spot} {c : Char} {cs word : List Char} {set : CharSet}

theorem one_ends_cons (h : s.rest = c :: cs) : (one set).ends s =
    if set.contains c then [⟨some c, s.index + 1, cs⟩] else [] := by
  rw [ends, Spot.nextIn_cons h, Spot.beyond_cons h]

theorem one_ends_nil (h : s.rest = []) : (one set).ends s = [] := by
  rw [ends, Spot.nextIn, h]
  rfl

/-- A text that comes next is read. -/
theorem pastText_found (h : word.isPrefixOf s.rest = true) :
    ∃ u, pastText word s = [u] ∧ s.Reads word u := by
  induction word generalizing s with
  | nil => exact ⟨s, rfl, rfl⟩
  | cons c word ih =>
    cases hs : s.rest with
    | nil => simp [hs] at h
    | cons d cs =>
      rw [hs, List.isPrefixOf_cons_cons, Bool.and_eq_true, beq_iff_eq] at h
      obtain ⟨rfl, h⟩ := h
      obtain ⟨u, hu, hreads⟩ := ih (s := ⟨some c, s.index + 1, cs⟩) h
      refine ⟨u, ?_, cs, hs, hreads⟩
      rw [pastText, Spot.nextIn_cons hs, Spot.beyond_cons hs, hu, CharSet.contains_only,
        if_pos (beq_self_eq_true c)]

theorem pastText_missed (h : word.isPrefixOf s.rest = false) : pastText word s = [] := by
  refine List.eq_nil_iff_forall_not_mem.2 fun e he => ?_
  have := (reads_of_mem_pastText he).rest_eq
  rw [this, List.isPrefixOf_iff_prefix.2 (List.prefix_append ..)] at h
  exact Bool.noConfusion h

/-- As many characters of a set as there are, but no more than `n`. -/
theorem many_ends (n : Nat) (s : Spot) : (upTo true (one set).ends n s).head?.map (·.index) =
    some (s.index + ((s.rest.take n).takeWhile set.contains).length) := by
  induction n generalizing s with
  | zero => rfl
  | succ n ih =>
    rw [upTo, if_pos rfl]
    cases hs : s.rest with
    | nil =>
      rw [one_ends_nil hs]
      rfl
    | cons c cs =>
      rw [one_ends_cons hs, List.take_succ_cons]
      by_cases hc : set.contains c = true
      · have := ih ⟨some c, s.index + 1, cs⟩
        obtain ⟨e, he, hindex⟩ := Option.map_eq_some_iff.1 this
        rw [if_pos hc, List.takeWhile_cons_of_pos hc, List.flatMap_singleton,
          List.head?_append, he, List.length_cons]
        dsimp only at hindex
        rw [Option.some_or, Option.map_some, hindex, Nat.add_assoc, Nat.add_comm 1]
      · rw [if_neg hc, List.takeWhile_cons_of_neg hc]
        rfl

/-- Any characters of a line, as few as possible. -/
def sparingly : Pattern := times false 0 none (one .inLine)

theorem sparingly_ends (s : Spot) :
    sparingly.ends s = upTo false (one .inLine).ends s.rest.length s :=
  List.flatMap_singleton _ s

/-- As few characters as possible in front of what begins with a word: it is read where the word
occurs first. -/
theorem sparingly_word {q : Pattern} (more : List Char → Nat)
    (hq : ∀ s, (q.ends s).head?.map (·.index) =
      if word.isPrefixOf s.rest then
        some (s.index + word.length + more (s.rest.drop word.length))
      else none)
    (hline : '\n' ∉ s.rest) : ((seq sparingly q).ends s).head?.map (·.index) =
      (Text.markEnd? word s.rest).map fun k => s.index + k + more (s.rest.drop k) := by
  rw [ends, sparingly_ends]
  generalize hn : s.rest.length = n
  induction n generalizing s with
  | zero =>
    have hs : s.rest = [] := List.eq_nil_of_length_eq_zero hn
    rw [upTo, List.flatMap_singleton, hq, hs]
    cases word with
    | nil => simp [Text.markEnd?, Text.firstIndexOf]
    | cons c word => rfl
  | succ n ih =>
    obtain ⟨c, cs, hs⟩ := List.exists_cons_of_length_eq_add_one hn
    rw [hs, List.mem_cons, not_or] at hline
    obtain ⟨hc, hcs⟩ := hline
    rw [upTo, if_neg Bool.false_ne_true, one_ends_cons hs,
      if_pos (by simpa using fun h => hc h.symm), List.flatMap_singleton, List.flatMap_cons,
      List.head?_append]
    have hfirst := hq s
    rw [hs] at hfirst hn ⊢
    by_cases hword : word.isPrefixOf (c :: cs) = true
    · rw [if_pos hword] at hfirst
      obtain ⟨e, he, hindex⟩ := Option.map_eq_some_iff.1 hfirst
      rw [he, Option.some_or, Option.map_some, hindex, Text.markEnd?_cons, if_pos hword]
      rfl
    · rw [if_neg hword, Option.map_eq_none_iff] at hfirst
      have := ih (s := ⟨some c, s.index + 1, cs⟩) hcs (Nat.succ.inj hn)
      rw [hfirst, Option.none_or, this, Text.markEnd?_cons, if_neg hword, Option.map_map]
      congr 1
      funext k
      simp only [Function.comp_apply, List.drop_succ_cons]
      omega

/-! ### Patterns held at the start -/

/-- The pattern, held at the start of the text. -/
def held (p : Pattern) : Pattern := seq (anchor .textStart) p

/-- A search finds what the pattern prefers at the start. -/
theorem search_held {p : Pattern} (hp : p.steady = true) (text : List Char) :
    (p.held.matcher.search text).map (·.stop) = (p.ends (.start text)).head?.map (·.index) := by
  rw [search_ends (p := p.held) hp rfl, show p.held.ends (.start text) = p.ends (.start text) from
    List.flatMap_singleton ..]

theorem text_ends (s : Spot) : ((text word).ends s).head?.map (·.index) =
    if word.isPrefixOf s.rest then some (s.index + word.length) else none := by
  rw [ends]
  split
  · next h =>
    obtain ⟨u, hu, hreads⟩ := pastText_found h
    rw [hu, List.head?_cons, Option.map_some, hreads.index_eq]
  · next h =>
    rw [pastText_missed (Bool.eq_false_iff.2 h)]
    rfl

theorem search_word (word line : List Char) : ((text word).held.matcher.search line).map (·.stop) =
    if word.isPrefixOf line then some word.length else none := by
  rw [search_held rfl, text_ends, Spot.start]
  simp

/-- **Up to a word**: it is read where it occurs first. -/
theorem search_mark {line : List Char} (word : List Char) (hline : '\n' ∉ line) :
    ((seq sparingly (text word)).held.matcher.search line).map (·.stop) =
      Text.markEnd? word line := by
  rw [search_held rfl, sparingly_word (fun _ => 0) (fun s => text_ends s) hline]
  simp [Spot.start]

/-- Up to a word and as many characters of a set behind it as there are, but no more than `n`. -/
theorem search_mark_many {line : List Char} (word : List Char) (n : Nat) (set : CharSet)
    (hline : '\n' ∉ line) :
    ((seq sparingly (seq (text word) (times true 0 (some n) (one set)))).held.matcher.search
      line).map (·.stop) = (Text.markEnd? word line).map fun k =>
        k + (((line.drop k).take n).takeWhile set.contains).length := by
  have hmore (s : Spot) :
      ((seq (text word) (times true 0 (some n) (one set))).ends s).head?.map (·.index) =
        if word.isPrefixOf s.rest then
          some (s.index + word.length +
            (((s.rest.drop word.length).take n).takeWhile set.contains).length)
        else none := by
    rw [ends, ends]
    split
    · next h =>
      obtain ⟨u, hu, hreads⟩ := pastText_found h
      rw [hu, List.flatMap_singleton, ends, exactly, List.flatMap_singleton, Option.elim_some,
        Nat.sub_zero, many_ends, hreads.index_eq, hreads.rest_eq, List.drop_left]
    · next h =>
      rw [pastText_missed (Bool.eq_false_iff.2 h)]
      rfl
  rw [search_held rfl,
    sparingly_word (fun rest => ((rest.take n).takeWhile set.contains).length) hmore hline]
  simp [Spot.start]

/-- As many characters of a set as a text begins with, one at least. -/
theorem search_many {set : CharSet} (hset : (one set).takesSome = true) (cs : List Char) :
    ((times true 1 none (one set)).held.matcher.search cs).map (·.stop) =
      if cs.takeWhile set.contains = [] then none else some (cs.takeWhile set.contains).length := by
  rw [search_held (by simp [steady, hset]), ends, exactly]
  cases cs with
  | nil => rfl
  | cons c cs =>
    rw [@one_ends_cons (.start (c :: cs)) c cs _ rfl]
    by_cases hc : set.contains c = true
    · rw [if_pos hc, List.takeWhile_cons_of_pos hc, if_neg (List.cons_ne_nil _ _),
        List.flatMap_singleton, exactly, List.flatMap_singleton, Option.elim_none, many_ends]
      simp [Spot.start, Nat.add_comm 1]
    · rw [if_neg hc, List.takeWhile_cons_of_neg hc, if_pos rfl]
      rfl

theorem takeWhile_inLine {line : List Char} (hline : '\n' ∉ line) :
    line.takeWhile CharSet.inLine.contains = line := by
  refine List.takeWhile_eq_self_iff.2 fun d hd => ?_
  rw [CharSet.contains_inLine]
  exact bne_iff_ne.2 fun h => hline (h ▸ hd)

/-- All of a line that has any characters. -/
theorem search_line {line : List Char} (hline : '\n' ∉ line) :
    ((times true 1 none (one .inLine)).held.matcher.search line).map (·.stop) =
      if line = [] then none else some line.length := by
  rw [search_many (by decide), takeWhile_inLine hline]

/-- All of a line that begins with a word. -/
theorem search_word_line {line : List Char} (word : List Char) (hline : '\n' ∉ line) :
    ((seq (text word) (times true 0 none (one .inLine))).held.matcher.search line).map (·.stop) =
      if word.isPrefixOf line then some line.length else none := by
  rw [search_held (p := seq (text word) (times true 0 none (one .inLine))) rfl, ends, ends]
  split
  · next h =>
    obtain ⟨u, hu, hreads⟩ := pastText_found (s := .start line) h
    have hsplit : line = word ++ u.rest := hreads.rest_eq
    have hrest : '\n' ∉ u.rest := fun hu => hline (hsplit ▸ List.mem_append_right _ hu)
    rw [hu, List.flatMap_singleton, ends, exactly, List.flatMap_singleton, Option.elim_none, many_ends,
      List.take_length, takeWhile_inLine hrest, hreads.index_eq, hsplit, List.length_append]
    simp [Spot.start]
  · next h =>
    rw [pastText_missed (s := .start line) (Bool.eq_false_iff.2 h)]
    rfl

/-! ### Quotes -/

/-- Any characters but backslashes and quotes. -/
def plain (quote : Char) : Pattern :=
  times true 0 none (one (.compl (.unionAll [.only '\\', .only quote])))

/-- A backslash and the character behind it, with all that follows up to the next backslash or
quote. -/
def escape (quote : Char) : Pattern := seq (text ['\\']) (seq (one .inLine) (plain quote))

/-- Up to a quote that is no part of a pair. -/
def quoted (quote : Char) : Pattern :=
  seq (plain quote) (seq (times true 0 none (escape quote)) (text [quote]))

section
variable {quote : Char} {t u : Spot}

theorem takes_plain : (plain quote).Takes s t ↔
    ∃ cs, s.Reads cs t ∧ ∀ c ∈ cs, c ≠ '\\' ∧ c ≠ quote := by
  simp [plain, takes_many, CharSet.contains, CharSet.unionAll]

theorem plain_inside (h : (plain quote).Takes s t) : ∃ cs, s.Reads cs t ∧ Text.Inside quote cs := by
  obtain ⟨cs, hcs, hplain⟩ := takes_plain.1 h
  exact ⟨cs, hcs, Text.inside_plain hplain⟩

theorem escapes_inside {n : Nat} (h : Iterates (escape quote).Takes n s t) :
    ∃ cs, s.Reads cs t ∧ Text.Inside quote cs := by
  induction n generalizing s with
  | zero => exact ⟨[], h, Text.inside_nil⟩
  | succ n ih =>
    obtain ⟨u, ⟨v, hback, w, ⟨c, hc, -⟩, hplain⟩, hmore⟩ := h
    obtain ⟨a, ha, hina⟩ := plain_inside hplain
    obtain ⟨b, hb, hinb⟩ := ih hmore
    exact ⟨['\\'] ++ [c] ++ a ++ b, ((hback.append hc).append ha).append hb,
      ((Text.inside_pair c).append hina).append hinb⟩

/-- What is taken up to a quote ends with the first quote that is no part of a pair. -/
theorem quoteEnd?_of_takes (hq : quote ≠ '\\') (h : (quoted quote).Takes s t) :
    Text.quoteEnd? quote s.rest = some (t.index - s.index) := by
  obtain ⟨u, hplain, v, ⟨n, -, -, hescapes⟩, hclose⟩ := h
  obtain ⟨a, ha, hina⟩ := plain_inside hplain
  obtain ⟨b, hb, hinb⟩ := escapes_inside hescapes
  have hreads : s.Reads (a ++ b ++ [quote]) t := (ha.append hb).append hclose
  rw [hreads.rest_eq, hreads.index_eq, List.append_assoc, hina.append hinb, List.cons_append,
    Text.quoteEnd?_plain hq, if_pos rfl, Option.map_some, Nat.add_sub_cancel_left]
  simp only [List.length_append, List.length_singleton, Nat.add_comm]

/-- Up to a quote more is taken when a character is put in front that is neither a backslash nor
one. -/
theorem quoted_cons (hs : s.rest = c :: cs) (hc : c ≠ '\\' ∧ c ≠ quote)
    (h : (quoted quote).Takes ⟨some c, s.index + 1, cs⟩ t) : (quoted quote).Takes s t := by
  obtain ⟨u, hplain, hmore⟩ := h
  obtain ⟨a, ha, hplain⟩ := takes_plain.1 hplain
  refine ⟨u, takes_plain.2 ⟨c :: a, ⟨cs, hs, ha⟩, ?_⟩, hmore⟩
  exact List.forall_mem_cons.2 ⟨hc, hplain⟩

/-- Up to a quote more is taken when a pair is put in front. -/
theorem quoted_pair (hs : s.rest = '\\' :: c :: cs) (hc : c ≠ '\n')
    (h : (quoted quote).Takes ⟨some c, s.index + 1 + 1, cs⟩ t) : (quoted quote).Takes s t := by
  obtain ⟨u, hplain, v, ⟨n, -, -, hescapes⟩, hclose⟩ := h
  have hpair : (escape quote).Takes s u :=
    ⟨⟨some '\\', s.index + 1, c :: cs⟩, ⟨_, hs, rfl⟩, _, ⟨c, ⟨cs, rfl, rfl⟩, by simpa using hc⟩,
      hplain⟩
  exact ⟨s, takes_plain.2 ⟨[], rfl, by simp⟩, v,
    ⟨n + 1, Nat.zero_le _, nofun, u, hpair, hescapes⟩, hclose⟩

theorem quoted_takes {k : Nat} (h : Text.quoteEnd? quote s.rest = some k) (hline : '\n' ∉ s.rest) :
    ∃ t, (quoted quote).Takes s t := by
  generalize hs : s.rest = text at h hline
  fun_induction Text.quoteEnd? quote text generalizing s k with
  | case1 => cases h
  | case2 c cs ih =>
    obtain ⟨j, hj, -⟩ := Option.map_eq_some_iff.1 h
    obtain ⟨t, ht⟩ := ih (s := ⟨some c, s.index + 1 + 1, cs⟩) rfl hj (by simp_all)
    exact ⟨t, quoted_pair hs (by rintro rfl; simp at hline) ht⟩
  | case3 cs hpair =>
    exact ⟨⟨some quote, s.index + 1, cs⟩, s, takes_plain.2 ⟨[], rfl, by simp⟩, s,
      ⟨0, Nat.le_refl 0, nofun, rfl⟩, cs, hs, rfl⟩
  | case4 c cs hpair hc ih =>
    obtain ⟨j, hj, -⟩ := Option.map_eq_some_iff.1 h
    obtain ⟨t, ht⟩ := ih (s := ⟨some c, s.index + 1, cs⟩) rfl hj (by simp_all)
    have hback : c ≠ '\\' := by
      rintro rfl
      cases cs with
      | nil => cases hj
      | cons d ds => exact hpair d ds rfl rfl
    exact ⟨t, quoted_cons hs ⟨hback, hc⟩ ht⟩

/-- **Up to a quote**: what is taken ends with the first one that is no part of a pair. -/
theorem search_quote {line : List Char} (hq : quote ≠ '\\') (hline : '\n' ∉ line) :
    ((quoted quote).held.matcher.search line).map (·.stop) = Text.quoteEnd? quote line := by
  cases hfound : (quoted quote).held.matcher.search line with
  | some m =>
    obtain ⟨t, ⟨u, ⟨-, rfl⟩, htakes⟩, hstop⟩ := held_sound rfl hfound
    have := quoteEnd?_of_takes hq htakes
    rw [show (Spot.start line).rest = line from rfl] at this
    rw [this, Option.map_some, ← hstop]
    rfl
  | none =>
    cases hend : Text.quoteEnd? quote line with
    | none => rfl
    | some k =>
      obtain ⟨t, ht⟩ := quoted_takes (s := .start line) hend hline
      have hsome := held_complete (p := (quoted quote).held) ⟨_, ⟨rfl, rfl⟩, ht⟩
      rw [hfound] at hsome
      cases hsome

end

end Pattern

end CodeEditing
