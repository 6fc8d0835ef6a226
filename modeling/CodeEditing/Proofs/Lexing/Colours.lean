import CodeEditing.Proofs.Lexing.Capped
import CodeEditing.Proofs.Lexing.Tiling

/-! The kinds a group rule gives to characters.

Tokens give a kind to every character of their text (`paint`). Of the groups that took a character the
first decides its kind, and without one it is `text` (`kindAt`). A group rule gives the characters of a
match just these kinds, as long as groups lie one behind the other or inside of one another (`InOrder`):
the cursor is where the last group ends that got a token, so a group that begins behind it is the first
to take its characters, one that begins before it lies inside of a group that has got a token, and what
is between belongs to none (`adds_pushGroups`). -/
namespace CodeEditing.Lexing

/-! ### Kinds of characters -/

/-- The kinds of the characters of some tokens, in order. -/
def paint (tokens : List Token) : List Kind :=
  tokens.flatMap fun t => List.replicate t.value.length t.kind

theorem paint_append (a b : List Token) : paint (a ++ b) = paint a ++ paint b := List.flatMap_append

theorem paint_singleton (t : Token) : paint [t] = List.replicate t.value.length t.kind :=
  List.flatMap_singleton ..

/-- The kind of the first group that took a place, `text` without one. -/
def kindWhere (took : Capture → Bool) (groups : List (Kind × Option Capture)) : Kind :=
  ((groups.find? fun p => p.2.any took).map Prod.fst).getD .text

/-- Whether a group took the character at an index of the match. -/
def takesIndex (i : Nat) (g : Capture) : Bool := g.start ≤ i && i < g.stop

/-- Whether a group took the byte at a column of the match. -/
def takesColumn (matched : List Char) (column : Nat) (g : Capture) : Bool :=
  Text.width (matched.take g.start) ≤ column && column < Text.width (matched.take g.stop)

/-- The kind of the character at an index of a match. -/
def kindAt (groups : List (Kind × Option Capture)) (i : Nat) : Kind := kindWhere (takesIndex i) groups

section
variable {groups more : List (Kind × Option Capture)} {kind : Kind} {g : Capture} {i : Nat}

theorem takesIndex_iff : takesIndex i g = true ↔ g.start ≤ i ∧ i < g.stop := by
  rw [takesIndex, Bool.and_eq_true, decide_eq_true_iff, decide_eq_true_iff]

theorem kindAt_of_takes (h : takesIndex i g = true) : kindAt ((kind, some g) :: more) i = kind := by
  simp only [kindAt, kindWhere, List.find?_cons, Option.any_some, h, Option.map_some,
    Option.getD_some]

theorem kindAt_of_not_takes (h : ¬takesIndex i g = true) :
    kindAt ((kind, some g) :: more) i = kindAt more i := by
  simp only [kindAt, kindWhere, List.find?_cons, Option.any_some, h]

end

/-! ### Groups in order -/

/-- Groups one behind the other or inside of one another. `taken` are those before them that have got
tokens: each one that took something begins behind all of these, and gets a token too, or it lies inside
of one. -/
inductive InOrder : List Capture → List (Kind × Option Capture) → Prop
  | nil {taken : List Capture} : InOrder taken []
  | unmatched {taken : List Capture} {kind : Kind} {more : List (Kind × Option Capture)}
      (h : InOrder taken more) : InOrder taken ((kind, none) :: more)
  | empty {taken : List Capture} {kind : Kind} {g : Capture} {more : List (Kind × Option Capture)}
      (nothing : g.start = g.stop) (h : InOrder taken more) : InOrder taken ((kind, some g) :: more)
  | behind {taken : List Capture} {kind : Kind} {g : Capture} {more : List (Kind × Option Capture)}
      (takes : g.start < g.stop) (past : ∀ a ∈ taken, a.stop ≤ g.start)
      (h : InOrder (g :: taken) more) : InOrder taken ((kind, some g) :: more)
  | inside {taken : List Capture} {kind : Kind} {g a : Capture} {more : List (Kind × Option Capture)}
      (takes : g.start < g.stop) (mem : a ∈ taken) (within : a.start ≤ g.start ∧ g.stop ≤ a.stop)
      (h : InOrder taken more) : InOrder taken ((kind, some g) :: more)

/-- No group takes a character that lies before the end of one that has got a token, and in none of
these. -/
theorem InOrder.kindAt_between {taken : List Capture} {groups : List (Kind × Option Capture)} {i : Nat}
    (h : InOrder taken groups) (hbefore : ∃ a ∈ taken, i < a.stop)
    (hnone : ∀ a ∈ taken, ¬takesIndex i a = true) : kindAt groups i = .text := by
  induction h with
  | nil => rfl
  | unmatched h ih => exact ih hbefore hnone
  | empty nothing h ih =>
    rw [kindAt_of_not_takes (by rw [takesIndex_iff]; omega)]
    exact ih hbefore hnone
  | @behind taken _ g _ takes past h ih =>
    obtain ⟨a, ha, hi⟩ := hbefore
    have hnot : ¬takesIndex i g = true := by
      have := past a ha
      rw [takesIndex_iff]
      omega
    rw [kindAt_of_not_takes hnot]
    exact ih ⟨a, List.mem_cons_of_mem g ha, hi⟩ (List.forall_mem_cons.2 ⟨hnot, hnone⟩)
  | @inside taken _ g a _ takes mem within h ih =>
    have hnot : ¬takesIndex i g = true := by
      have := hnone a mem
      rw [takesIndex_iff] at this ⊢
      omega
    rw [kindAt_of_not_takes hnot]
    exact ih hbefore hnone

/-! ### Adding tokens -/

/-- Tokens, latest first, that have come from others by adding some text with its kinds. -/
structure Adds (out : List Token) (value : List Char) (kinds : List Kind) (new : List Token) :
    Prop where
  text : textOf new.reverse = textOf out.reverse ++ value
  kinds : paint new.reverse = paint out.reverse ++ kinds

namespace Adds
variable {out mid new : List Token} {value more : List Char} {kinds others : List Kind} {kind : Kind}

theorem trans (h : Adds out value kinds mid) (h' : Adds mid more others new) :
    Adds out (value ++ more) (kinds ++ others) new where
  text := by rw [h'.text, h.text, List.append_assoc]
  kinds := by rw [h'.kinds, h.kinds, List.append_assoc]

/-- A token gives its kind to its text, joined to the latest one or not. -/
theorem push (merge : Bool) (kind : Kind) (value : List Char) (start : Nat) (out : List Token) :
    Adds out value (List.replicate value.length kind) (Lexing.push merge kind value start out) := by
  cases out with
  | nil => exact ⟨by simp [Lexing.push], paint_singleton _⟩
  | cons last more =>
    rw [Lexing.push]
    split
    · next hjoin =>
      obtain ⟨-, hkind⟩ := Bool.and_eq_true_iff.1 hjoin
      obtain rfl := eq_of_beq hkind
      refine ⟨by simp, ?_⟩
      simp only [List.reverse_cons, paint_append, paint_singleton, List.length_append,
        ← List.replicate_append_replicate, List.append_assoc]
    · refine ⟨by simp, ?_⟩
      rw [List.reverse_cons, paint_append, paint_singleton]

/-- Text that may be empty gives a token when there is some. -/
theorem pushSome (merge : Bool) (kind : Kind) (value : List Char) (start : Nat) (out : List Token) :
    Adds out value (List.replicate value.length kind)
      (if value.isEmpty then out else Lexing.push merge kind value start out) := by
  cases value with
  | nil => exact ⟨by simp, by simp⟩
  | cons c cs => exact push merge kind (c :: cs) start out

end Adds

/-- The kinds of the characters of a match from one index up to another. -/
def kindsFrom (groups : List (Kind × Option Capture)) (first stop : Nat) : List Kind :=
  (List.range' first (stop - first)).map (kindAt groups)

section
variable {groups others : List (Kind × Option Capture)} {kind : Kind} {first mid stop : Nat}

theorem kindsFrom_append (hfirst : first ≤ mid) (hmid : mid ≤ stop) :
    kindsFrom groups first mid ++ kindsFrom groups mid stop = kindsFrom groups first stop := by
  have hrange := List.range'_append_1 (s := first) (m := mid - first) (n := stop - mid)
  have hlength : mid - first + (stop - mid) = stop - first := by omega
  rw [Nat.add_sub_cancel' hfirst, hlength] at hrange
  rw [kindsFrom, kindsFrom, ← List.map_append, hrange, kindsFrom]

theorem kindsFrom_eq_replicate (h : ∀ i, first ≤ i → i < stop → kindAt groups i = kind) :
    kindsFrom groups first stop = List.replicate (stop - first) kind := by
  refine List.eq_replicate_iff.2 ⟨by simp [kindsFrom], fun k hk => ?_⟩
  obtain ⟨i, hi, rfl⟩ := List.mem_map.1 hk
  rw [List.mem_range'_1] at hi
  exact h i hi.1 (by omega)

theorem kindsFrom_congr (h : ∀ i, first ≤ i → i < stop → kindAt groups i = kindAt others i) :
    kindsFrom groups first stop = kindsFrom others first stop := by
  refine List.map_congr_left fun i hi => ?_
  rw [List.mem_range'_1] at hi
  exact h i hi.1 (by omega)

/-- A stretch of a text and all that is behind it. -/
theorem stretch_append_drop {cs : List Char} (h : first ≤ mid) :
    (cs.take mid).drop first ++ cs.drop mid = cs.drop first := by
  rw [List.drop_take]
  conv_lhs => rw [← Nat.add_sub_cancel' h, ← List.drop_drop, Nat.add_sub_cancel_left]
  exact List.take_append_drop _ _

theorem length_stretch {cs : List Char} (h : mid ≤ cs.length) :
    ((cs.take mid).drop first).length = mid - first := by
  rw [List.length_drop, List.length_take_of_le h]

end

/-- What a group rule adds behind the cursor, where the last group that has got a token ends. -/
theorem adds_pushGroups {matched : List Char} {cursor : Nat} {taken : List Capture}
    {groups : List (Kind × Option Capture)} {out : List Token} (merge : Bool) (start : Nat)
    (horder : InOrder taken groups)
    (hin : ∀ p ∈ groups, ∀ g ∈ p.2, g.stop ≤ matched.length)
    (hpast : ∀ a ∈ taken, a.stop ≤ cursor) (hlast : cursor = 0 ∨ ∃ a ∈ taken, a.stop = cursor) :
    Adds out (matched.drop cursor) (kindsFrom groups cursor matched.length)
      (pushGroups merge matched start cursor groups out) := by
  induction horder generalizing cursor out with
  | nil =>
    have hkinds : kindsFrom [] cursor matched.length =
        List.replicate (matched.length - cursor) .text := kindsFrom_eq_replicate fun _ _ _ => rfl
    rw [hkinds, ← List.length_drop]
    exact Adds.pushSome merge .text (matched.drop cursor) _ out
  | unmatched h ih => exact ih (List.forall_mem_cons.1 hin).2 hpast hlast
  | @empty taken kind g more nothing h ih =>
    have hskip : kindsFrom ((kind, some g) :: more) cursor matched.length =
        kindsFrom more cursor matched.length :=
      kindsFrom_congr fun i _ _ => kindAt_of_not_takes (by rw [takesIndex_iff]; omega)
    rw [hskip, pushGroups, if_pos (by simp [nothing])]
    exact ih (List.forall_mem_cons.1 hin).2 hpast hlast
  | @behind taken kind g more takes past h ih =>
    -- text up to the group, the group, and what is behind it, where the cursor is then
    obtain ⟨hg, hmore⟩ := List.forall_mem_cons.1 hin
    have hstop : g.stop ≤ matched.length := hg g rfl
    have hcursor : cursor ≤ g.start := by
      rcases hlast with rfl | ⟨a, ha, rfl⟩
      · exact Nat.zero_le _
      · exact past a ha
    have hgap : kindsFrom ((kind, some g) :: more) cursor g.start =
        List.replicate ((matched.take g.start).drop cursor).length .text := by
      rw [length_stretch (by omega)]
      refine kindsFrom_eq_replicate fun i hi hlt => ?_
      have hnot : ¬takesIndex i g = true := by rw [takesIndex_iff]; omega
      rw [kindAt_of_not_takes hnot]
      refine h.kindAt_between ⟨g, List.mem_cons_self, by omega⟩ (List.forall_mem_cons.2 ⟨hnot, ?_⟩)
      intro a ha
      have := hpast a ha
      rw [takesIndex_iff]
      omega
    have htaken : kindsFrom ((kind, some g) :: more) g.start g.stop =
        List.replicate ((matched.take g.stop).drop g.start).length kind := by
      rw [length_stretch hstop]
      exact kindsFrom_eq_replicate fun i hi hlt => kindAt_of_takes (takesIndex_iff.2 ⟨hi, hlt⟩)
    have hrest : kindsFrom ((kind, some g) :: more) g.stop matched.length =
        kindsFrom more g.stop matched.length :=
      kindsFrom_congr fun i hi _ => kindAt_of_not_takes (by rw [takesIndex_iff]; omega)
    have hskip : ¬(g.start = g.stop || g.start < cursor) = true := by simp; omega
    rw [pushGroups, if_neg hskip, ← stretch_append_drop hcursor,
      ← stretch_append_drop (Nat.le_of_lt takes), ← kindsFrom_append hcursor (by omega),
      ← kindsFrom_append (Nat.le_of_lt takes) hstop, hgap, htaken, hrest]
    have hpast' : ∀ a ∈ g :: taken, a.stop ≤ g.stop :=
      List.forall_mem_cons.2 ⟨Nat.le_refl _, fun a ha => Nat.le_trans (past a ha) (Nat.le_of_lt takes)⟩
    exact (Adds.pushSome merge .text _ _ out).trans ((Adds.push merge kind _ _ _).trans
      (ih hmore hpast' (.inr ⟨g, List.mem_cons_self, rfl⟩)))
  | @inside taken kind g a more takes mem within h ih =>
    -- the group ends before the cursor, so it has none of the characters that are left
    have hbefore : g.stop ≤ cursor := Nat.le_trans within.2 (hpast a mem)
    have hskip : kindsFrom ((kind, some g) :: more) cursor matched.length =
        kindsFrom more cursor matched.length :=
      kindsFrom_congr fun i hi _ => kindAt_of_not_takes (by rw [takesIndex_iff]; omega)
    rw [hskip, pushGroups, if_pos (by simp; omega)]
    exact ih (List.forall_mem_cons.1 hin).2 hpast hlast

/-! ### Columns of a match -/

/-- Each column of a text falls inside a character. -/
theorem exists_char_at {cs : List Char} {n : Nat} (h : n < Text.width cs) : ∃ a c b,
    cs = a ++ c :: b ∧ Text.width a ≤ n ∧ n < Text.width a + c.utf8Size := by
  induction cs generalizing n with
  | nil => exact absurd h (Nat.not_lt_zero n)
  | cons d ds ih =>
    by_cases hd : n < d.utf8Size
    · exact ⟨[], d, ds, rfl, Nat.zero_le n, by simpa using hd⟩
    · rw [Text.width_cons] at h
      obtain ⟨a, c, b, rfl, ha, hc⟩ := ih (n := n - d.utf8Size) (by omega)
      exact ⟨d :: a, c, b, rfl, by rw [Text.width_cons]; omega, by rw [Text.width_cons]; omega⟩

section
variable {a b : List Char} {c : Char} {n : Nat}

/-- A column inside a character lies behind just the beginnings of the text without the character. -/
theorem width_take_le_iff (ha : Text.width a ≤ n) (hc : n < Text.width a + c.utf8Size) (k : Nat) :
    Text.width ((a ++ c :: b).take k) ≤ n ↔ k ≤ a.length := by
  constructor
  · intro hk
    by_contra hlt
    obtain ⟨d, hd⟩ := Nat.exists_eq_add_of_lt (Nat.lt_of_not_le hlt)
    have htake : (a ++ c :: b).take k = a ++ c :: b.take d := by
      rw [hd, Nat.add_assoc, List.take_length_add_append, List.take_succ_cons]
    rw [htake, Text.width_append, Text.width_cons] at hk
    omega
  · intro hk
    have hsplit := congrArg Text.width (List.take_append_drop k a)
    rw [Text.width_append] at hsplit
    rw [List.take_append_of_le_length hk]
    omega

theorem takesColumn_eq (ha : Text.width a ≤ n) (hc : n < Text.width a + c.utf8Size) :
    takesColumn (a ++ c :: b) n = takesIndex a.length := by
  funext g
  have hstart := width_take_le_iff (b := b) ha hc g.start
  have hstop := width_take_le_iff (b := b) ha hc g.stop
  rw [Bool.eq_iff_iff, takesIndex_iff, takesColumn, Bool.and_eq_true, decide_eq_true_iff,
    decide_eq_true_iff, hstart, ← Nat.not_le, hstop, Nat.not_le]

/-- A column inside a character belongs to the token of a tiling that holds the character. -/
theorem Tiles.exists_token {ts : List Token} {column : Nat} (h : Tiles column ts)
    (htext : textOf ts = a ++ c :: b) (ha : column + Text.width a ≤ n)
    (hc : n < column + Text.width a + c.utf8Size) :
    ∃ t ∈ ts, t.start ≤ n ∧ n < t.stop ∧ (paint ts)[a.length]? = some t.kind := by
  induction ts generalizing column a with
  | nil => exact absurd htext.symm (List.append_ne_nil_of_right_ne_nil a (List.cons_ne_nil c b))
  | cons t ts ih =>
    obtain ⟨rfl, -, hmore⟩ := h
    rw [textOf_cons, List.append_eq_append_iff] at htext
    -- the character lies behind the token, or in it
    have later (a' : List Char) (heq : a = t.value ++ a') (htext : textOf ts = a' ++ c :: b) :
        ∃ u ∈ t :: ts, u.start ≤ n ∧ n < u.stop ∧ (paint (t :: ts))[a.length]? = some u.kind := by
      rw [heq, Text.width_append] at ha hc
      obtain ⟨u, hu, hstart, hstop, hkind⟩ := ih hmore htext (by rw [Token.stop]; omega)
        (by rw [Token.stop]; omega)
      refine ⟨u, List.mem_cons_of_mem t hu, hstart, hstop, ?_⟩
      rw [← hkind, heq, paint, List.flatMap_cons, List.length_append,
        List.getElem?_append_right (by simp)]
      simp [paint]
    rcases htext with ⟨a', rfl, htext⟩ | ⟨tail, hvalue, htext⟩
    · exact later a' rfl htext
    · cases tail with
      | nil =>
        rw [List.append_nil] at hvalue
        exact later [] (by rw [hvalue, List.append_nil]) htext.symm
      | cons d tail =>
        obtain ⟨rfl, -⟩ := List.cons.inj htext
        have hwidth : Text.width t.value = Text.width a + (c.utf8Size + Text.width tail) := by
          rw [hvalue, Text.width_append, Text.width_cons]
        refine ⟨t, List.mem_cons_self, by omega, by rw [Token.stop]; omega, ?_⟩
        have hlength : a.length < t.value.length := by
          rw [hvalue, List.length_append, List.length_cons]
          omega
        rw [paint, List.flatMap_cons, List.getElem?_append_left (by simpa using hlength),
          List.getElem?_replicate, if_pos hlength]

end

/-! ### Emitting a match -/

theorem Rule.emit_groups {rule : Rule} {kinds : List Kind} (hrule : rule.token = .groups kinds)
    {rest : List Char} {m : Match} (hm : rule.regex.captures rest = some m) (stop start : Nat)
    (out : List Token) :
    rule.emit rest stop start out =
      pushGroups rule.merge (rest.take stop) start 0 (rule.groupsOf kinds m) out := by
  rw [Rule.emit, hrule]
  dsimp only
  rw [hm]

/-- Kinds and columns of tokens stay when tokens are added. -/
theorem Grows.marks_kept {before out : List Token} {n : Nat} (h : Grows before n out) :
    before.reverse.map (fun t => (t.kind, t.start)) <+: out.reverse.map fun t => (t.kind, t.start) := by
  rcases h.cases with rfl | ⟨last, more, newer, value, rfl, rfl⟩
  · exact List.nil_prefix
  · refine ⟨newer.reverse.map fun t => (t.kind, t.start), ?_⟩
    simp

/-- **A group rule gives each character its kind.** Let the groups of a match that have taken something
lie one behind the other or inside of one another. Whatever tokens there are, the text of the match is
added to theirs; each character that a group took is of the kind of the first group that took it, and
all others are `text`; and the tokens before keep their kinds and columns. When these hold the text
before the match, all tokens do so together with the match, and every column of the match lies in a
token of that kind. -/
theorem Rule.emit_colours {rule : Rule} {kinds : List Kind} {rest : List Char} {stop : Nat}
    {m : Match} (hrule : rule.token = .groups kinds) (hfound : rule.regex.captures rest = some m)
    (hm : m.Within 0 (rest.take stop).length) (horder : InOrder [] (rule.groupsOf kinds m))
    (start : Nat) (out : List Token) :
    let matched := rest.take stop
    let groups := rule.groupsOf kinds m
    let tokens := (rule.emit rest stop start out).reverse
    textOf tokens = textOf out.reverse ++ matched ∧
      paint tokens = paint out.reverse ++ (List.range matched.length).map (kindAt groups) ∧
      out.reverse.map (fun t => (t.kind, t.start)) <+: tokens.map (fun t => (t.kind, t.start)) ∧
      ∀ text, Covers text out → start = Text.width text →
        Covers (text ++ matched) (rule.emit rest stop start out) ∧
        ∀ n < Text.width matched, ∃ t ∈ tokens, t.start ≤ start + n ∧ start + n < t.stop ∧
          t.kind = kindWhere (takesColumn matched n) groups := by
  intro matched groups tokens
  have hin : ∀ p ∈ groups, ∀ g ∈ p.2, g.start ≤ g.stop ∧ g.stop ≤ matched.length := by
    intro p hp g hg
    obtain ⟨hle, hstop⟩ := Rule.groupsOf_within hm p hp g hg
    exact ⟨hle, Nat.le_trans hstop hm.stop_le⟩
  have hadds : Adds out matched ((List.range matched.length).map (kindAt groups))
      (rule.emit rest stop start out) := by
    rw [Rule.emit_groups hrule hfound, List.range_eq_range']
    exact adds_pushGroups rule.merge start horder (fun p hp g hg => (hin p hp g hg).2)
      (fun a ha => absurd ha List.not_mem_nil) (.inl rfl)
  refine ⟨hadds.text, hadds.kinds, (rule.emit_grows rest stop start out).marks_kept, ?_⟩
  rintro text hcovers rfl
  have hnew : Covers (text ++ matched) (rule.emit rest stop (Text.width text) out) := by
    rw [Rule.emit_groups hrule hfound]
    exact Covers.pushGroups rule.merge hin (Nat.zero_le _) (by simpa using hcovers)
  refine ⟨hnew, fun n hn => ?_⟩
  obtain ⟨a, c, b, hmatched, ha, hc⟩ := exists_char_at hn
  have htext : textOf tokens = (text ++ a) ++ c :: b := by
    rw [hnew.text_eq, hmatched, List.append_assoc]
  obtain ⟨t, ht, hstart, hstop, hkind⟩ := hnew.tiles.exists_token (n := Text.width text + n) htext
    (by rw [Text.width_append]; omega) (by rw [Text.width_append]; omega)
  refine ⟨t, ht, hstart, hstop, Option.some.inj (hkind.symm.trans ?_)⟩
  have hbefore : (paint out.reverse).length = text.length := by
    rw [← hcovers.text_eq, paint, textOf, List.length_flatMap, List.length_flatMap]
    simp
  have hindex : a.length < matched.length := by
    rw [hmatched, List.length_append, List.length_cons]
    omega
  rw [hadds.kinds, List.length_append, ← hbefore, List.getElem?_append_right (Nat.le_add_right ..),
    Nat.add_sub_cancel_left, List.getElem?_map, List.getElem?_range hindex, hmatched,
    takesColumn_eq ha hc]
  rfl

/-- A group inside of another one, one that is not matched, one that takes nothing, and a last one
behind these. -/
def nestedRule : Rule :=
  ⟨"(a(b))-(c)?(d*)(e);",
    (Matcher.regex? (heldText "(a(b))-(c)?(d*)(e);".toList)).getD Matcher.never.regex,
    .groups [.keyword, .string, .comment, .variable, .identifier], true, none⟩

def nestedMatch : Match := ⟨0, 5, [⟨5, 3, 4⟩, ⟨4, 3, 3⟩, ⟨1, 0, 2⟩, ⟨2, 1, 2⟩]⟩

theorem Rule.emit_colours_nested :
    nestedRule.regex.captures "ab-e;x".toList = some nestedMatch ∧
      let tokens := (nestedRule.emit "ab-e;x".toList 5 2 [⟨.keyword, ['é'], 0⟩]).reverse
      textOf tokens = "éab-e;".toList ∧
        paint tokens = [.keyword, .keyword, .keyword, .text, .identifier, .text] ∧
        [(Kind.keyword, 0)] <+: tokens.map (fun t => (t.kind, t.start)) ∧
        ∀ n < 5, ∃ t ∈ tokens, t.start ≤ 2 + n ∧ 2 + n < t.stop ∧
          t.kind = [Kind.keyword, .keyword, .text, .identifier, .text].getD n .text := by
  have hfound : nestedRule.regex.captures "ab-e;x".toList = some nestedMatch := by decide +kernel
  have hwithin : nestedMatch.Within 0 ("ab-e;x".toList.take 5).length :=
    ⟨by decide, by decide, by decide, by decide⟩
  have hgroups : nestedRule.groupsOf [.keyword, .string, .comment, .variable, .identifier]
      nestedMatch = [(.keyword, some ⟨1, 0, 2⟩), (.string, some ⟨2, 1, 2⟩), (.comment, none),
        (.variable, some ⟨4, 3, 3⟩), (.identifier, some ⟨5, 3, 4⟩)] := by decide +kernel
  have horder : InOrder [] (nestedRule.groupsOf
      [.keyword, .string, .comment, .variable, .identifier] nestedMatch) := by
    rw [hgroups]
    exact .behind (by decide) (by decide) (.inside (by decide) List.mem_cons_self (by decide)
      (.unmatched (.empty rfl (.behind (by decide) (by decide) .nil))))
  obtain ⟨htext, hpaint, hprefix, hcovers⟩ :=
    Rule.emit_colours rfl hfound hwithin horder 2 [⟨.keyword, ['é'], 0⟩]
  have hbefore : Covers ['é'] [⟨.keyword, ['é'], 0⟩] := ⟨⟨rfl, by decide, trivial⟩, rfl⟩
  refine ⟨hfound, htext, ?_, hprefix, fun n hn => ?_⟩
  · rw [hpaint, hgroups]
    decide
  · obtain ⟨t, ht, hstart, hstop, hkind⟩ := (hcovers ['é'] hbefore rfl).2 n hn
    refine ⟨t, ht, hstart, hstop, hkind.trans ?_⟩
    rw [hgroups]
    clear hstart hstop hkind
    revert n
    decide

end CodeEditing.Lexing
