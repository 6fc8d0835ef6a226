import CodeEditing.Proofs.Lexing.Constructs

/-! Lines that are nothing but a comment.

Many rules of the state `start` come before those for comments and blanks. What the patterns of such rules
begin with tells that they do not match (`missed_before`): in front of blanks that leaves the last rule
(`reads_blanks`), and in front of a hash the three for hashes, of which those for more hashes do not match
when there is a single one (`reads_hash`). So blanks and a comment behind them are two tokens, and the line
ends in the state it began in (`tokenize_comment`). -/
namespace CodeEditing.Lexing

/-! ### The first rule that matches -/

theorem firstMatch_append {rest : List Char} {index : Nat} {before more : List Rule}
    (h : ∀ q ∈ before, q.regex.find rest = none) :
    firstMatch rest index (before ++ more) = firstMatch rest (index + before.length) more := by
  induction before generalizing index with
  | nil => rfl
  | cons q before ih =>
    obtain ⟨hq, hbefore⟩ := List.forall_mem_cons.1 h
    rw [List.cons_append, firstMatch, hq, ih hbefore, List.length_cons, Nat.add_comm before.length,
      Nat.add_assoc]

/-- The first rule that matches takes so many characters as a token of its own and stays in the state. -/
def Reads (rules : List Rule) (rest : List Char) (count : Nat) (kind : Kind) : Prop :=
  ∃ i r m, firstMatch rest 0 rules = some (i, r, m) ∧ m.stop = count ∧ r.token = .kind kind ∧
    r.merge = false ∧ r.next = none

/-- A scan that has read some characters as a token of their own. -/
def Scan.over (s : Scan) (count : Nat) (kind : Kind) : Scan :=
  {s with
    offset := s.offset + Text.width (s.rest.take count)
    rest := s.rest.drop count
    tokens := ⟨kind, s.rest.take count, s.offset⟩ :: s.tokens}

theorem Reads.run {t : RuleTable} {cap count : Nat} {strict : Bool} {s : Scan} {st : LexState}
    {kind : Kind} (h : Reads st.rules s.rest count kind) (hst : t.state? s.state = some st)
    (hroom : s.tokens.length < cap) (hpos : 0 < count) (hne : s.rest ≠ []) :
    s.run t cap strict = (s.over count kind).run t cap strict := by
  obtain ⟨i, r, m, hfirst, rfl, htoken, hmerge, hnext⟩ := h
  obtain ⟨x, xs, hrest⟩ := List.exists_cons_of_ne_nil hne
  have hover : s.take r m = s.over m.stop kind := by
    simp only [Scan.take, Scan.over, Rule.emit, htoken, hmerge, hnext, push_false, Option.getD_none]
  rw [Scan.run_step hrest (Scan.Moves.step hrest (.take hroom hst hfirst hpos)), hover]

/-! ### Rules of the state `start` -/

namespace Coffee
variable {rules : List Rule} {i k : Nat} {b : List Char} {c : Char} {cs : List Char}

theorem exists_rule (h : List.Forall₂ (RuleDraft.Compiled Matcher.regex? names) startRules rules)
    {d : RuleDraft} (hd : startRules[i]? = some d) :
    ∃ r, rules[i]? = some r ∧ d.Compiled Matcher.regex? names r := by
  obtain ⟨hi, rfl⟩ := List.getElem?_eq_some_iff.1 hd
  have hi' : i < rules.length := h.length_eq ▸ hi
  exact ⟨rules[i], List.getElem?_eq_getElem hi', (List.forall₂_iff_get.1 h).2 i hi hi'⟩

/-- No rule of the state `start` up to a place matches in front of a character that their patterns do not
begin with. -/
theorem missed_before (h : List.Forall₂ (RuleDraft.Compiled Matcher.regex? names) startRules rules)
    (hc : c ∈ b)
    (hfirst : (List.zipWith (fun _ cs => (heldForm? cs).any (·.avoidsFirst b)) (startRules.take k)
      (startTexts.1.take k)).all id = true) :
    ∀ q ∈ rules.take k, q.regex.find (c :: cs) = none := by
  intro q hq
  obtain ⟨d, hd, hcompiled⟩ := exists_related (List.forall₂_take k h) hq
  have hcheck := Written.all (List.forall₂_take k startTexts.2) hfirst d hd
  have hfits : d.Fits names := states_fit _ List.mem_cons_self d (List.mem_of_mem_take hd)
  obtain ⟨p, hp, havoids⟩ := (Option.any_eq_true _ _).1 hcheck
  obtain ⟨p', hp', hfit⟩ := (Option.any_eq_true _ _).1 hfits
  obtain rfl := Option.some.inj (hp.symm.trans hp')
  simp only [Bool.and_eq_true] at hfit
  rw [compiled_regex hcompiled hp, Matcher.regex_find_eq_none]
  exact Pattern.held_missed hfit.1.1.2 hfit.1.1.1 havoids hc

/-- A rule for a kind reads what its pattern matches when no rule before it matches. -/
theorem reads_of_rule (h : List.Forall₂ (RuleDraft.Compiled Matcher.regex? names) startRules rules)
    {kind : Kind} {pattern : String} {p : Pattern} (hd : startRules[i]? = some (ofKind pattern kind))
    (hform : heldForm? pattern.toList = some p.held)
    (hbefore : ∀ q ∈ rules.take i, q.regex.find cs = none)
    (hsearch : (p.held.matcher.search cs).map (·.stop) = some k) : Reads rules cs k kind := by
  obtain ⟨r, hr, hcompiled⟩ := exists_rule h hd
  obtain ⟨hi, rfl⟩ := List.getElem?_eq_some_iff.1 hr
  rw [← compiled_stop hcompiled hform] at hsearch
  obtain ⟨m, hm, hstop⟩ := Option.map_eq_some_iff.1 hsearch
  have hsplit : rules = rules.take i ++ rules[i] :: rules.drop (i + 1) := by
    rw [← List.drop_eq_getElem_cons hi, List.take_append_drop]
  have hfirst : firstMatch cs 0 rules = some (0 + (rules.take i).length, rules[i], m) := by
    conv_lhs => rw [hsplit]
    rw [firstMatch_append hbefore, firstMatch, hm]
  exact ⟨_, _, m, hfirst, hstop, hcompiled.token, hcompiled.merge, hcompiled.leads⟩

/-- Blanks in front of other text are read by the last rule. -/
theorem reads_blanks (h : List.Forall₂ (RuleDraft.Compiled Matcher.regex? names) startRules rules)
    {front rest : List Char} (hne : front ≠ []) (hfront : ∀ c ∈ front, c ∈ [' ', '\t'])
    (hrest : ∀ c ∈ rest.head?, Text.isBlank c = false) :
    Reads rules (front ++ rest) front.length .text := by
  have hform : heldForm? r"\s+".toList = some (Pattern.times true 1 none (.one .blank)).held := by
    decide +kernel
  have htake : (front ++ rest).takeWhile CharSet.blank.contains = front := by
    have hblank : ∀ c ∈ front, CharSet.blank.contains c = true := by
      intro c hc
      obtain rfl | rfl : c = ' ' ∨ c = '\t' := by simpa using hfront c hc
      all_goals decide
    exact (Text.cut_append hblank hrest).1
  obtain ⟨c, cs, rfl⟩ := List.exists_cons_of_ne_nil hne
  refine reads_of_rule h (i := 22) rfl hform ?_ ?_
  · exact missed_before h (hfront c List.mem_cons_self) (by decide +kernel)
  · rw [Pattern.search_many (by decide), htake, if_neg hne]

theorem not_more_hashes {body : List Char} (hbody : body.head? ≠ some '#') (word : List Char) :
    ¬('#' :: '#' :: word).isPrefixOf ('#' :: body) = true := by
  intro h
  obtain ⟨more, hmore⟩ := List.isPrefixOf_iff_prefix.1 h
  rw [← (List.cons.inj hmore).2] at hbody
  exact hbody rfl

/-- A single hash and all behind it are read by the rule for line comments. -/
theorem reads_hash (h : List.Forall₂ (RuleDraft.Compiled Matcher.regex? names) startRules rules)
    {body : List Char} (hbody : body.head? ≠ some '#') (hline : '\n' ∉ body) :
    Reads rules ('#' :: body) (body.length + 1) .comment := by
  have hone : heldForm? "#.*".toList =
      some (Pattern.seq (.text ['#']) (.times true 0 none (.one .inLine))).held := by decide +kernel
  have hthree : heldForm? "###".toList = some (Pattern.text ['#', '#', '#']).held := by decide +kernel
  have hfour : heldForm? "####.*".toList =
      some (Pattern.seq (.text ['#', '#', '#', '#']) (.times true 0 none (.one .inLine))).held := by
    decide +kernel
  have hhash : '\n' ∉ '#' :: body := List.not_mem_cons_of_ne_of_not_mem (by decide) hline
  -- the two rules in front of the one for a hash begin with hashes as well, but with more of them
  obtain ⟨four, hget, hcompiled⟩ := exists_rule h (i := 8) rfl
  obtain ⟨three, hget', hcompiled'⟩ := exists_rule h (i := 9) rfl
  have htake : rules.take 10 = rules.take 8 ++ [four, three] := by
    rw [List.take_add_one, List.take_add_one, hget, hget']
    simp
  refine reads_of_rule h (i := 10) rfl hone ?_ ?_
  · rw [htake]
    refine List.forall_mem_append.2 ⟨missed_before h (b := ['#']) List.mem_cons_self (by decide +kernel),
      List.forall_mem_cons.2 ⟨?_, List.forall_mem_singleton.2 ?_⟩⟩
    · have hsearch := Pattern.search_word_line ['#', '#', '#', '#'] hhash
      rw [if_neg (not_more_hashes hbody _), ← compiled_stop hcompiled hfour] at hsearch
      exact Option.map_eq_none_iff.1 hsearch
    · have hsearch := Pattern.search_word ['#', '#', '#'] ('#' :: body)
      rw [if_neg (not_more_hashes hbody _), ← compiled_stop hcompiled' hthree] at hsearch
      exact Option.map_eq_none_iff.1 hsearch
  · rw [Pattern.search_word_line ['#'] hhash, if_pos (by simp)]
    rfl

/-- **Behind blanks a single hash makes the rest of a line a comment.** The line ends in the state
`start`. -/
theorem tokenize_comment {t : RuleTable} (ht : draft.build = .ok t) {cap : Nat} (hcap : 1 < cap)
    {front body : List Char} (hfront : ∀ c ∈ front, c ∈ [' ', '\t'])
    (hbody : body.head? ≠ some '#') (hline : '\n' ∉ body) :
    (⟨t, cap⟩ : Tokenizer).tokenize .start (front ++ '#' :: body) =
      ⟨whole .text front ++ [⟨.comment, '#' :: body, Text.width front⟩], .start⟩ := by
  obtain ⟨st, hst, hrules, -⟩ := state?_start ht
  have hblanks : (afresh (front ++ '#' :: body)).run t cap false =
      (inside .start .text front ('#' :: body)).run t cap false := by
    by_cases hnil : front = []
    · rw [hnil]
      rfl
    · have hreads : Reads st.rules (front ++ '#' :: body) front.length .text :=
        reads_blanks hrules hnil hfront fun c hc => by obtain rfl := Option.some.inj hc; decide
      refine (Reads.run (s := afresh _) hreads hst (Nat.zero_lt_of_lt hcap)
        (List.length_pos_iff.2 hnil) (by simp [afresh])).trans ?_
      simp [Scan.over, afresh, inside, whole, hnil]
  have hcomment : (inside .start .text front ('#' :: body)).run t cap false =
      .ok ((inside .start .text front ('#' :: body)).over (body.length + 1) .comment) := by
    have hreads := reads_hash hrules hbody hline
    refine (Reads.run (s := inside .start .text front ('#' :: body)) hreads hst
      (room_whole hcap .text front) (Nat.succ_pos _) (List.cons_ne_nil _ _)).trans (Scan.run_nil ?_)
    simp [Scan.over, inside]
  have hscan : (⟨t, cap⟩ : Tokenizer).scan false .start (front ++ '#' :: body) =
      .ok ((inside .start .text front ('#' :: body)).over (body.length + 1) .comment) := by
    rw [Tokenizer.scan, Tokenizer.enter, ite_self]
    exact hblanks.trans hcomment
  have hreverse : (whole .text front).reverse = whole .text front := by
    rw [whole]
    split <;> rfl
  rw [Tokenizer.tokenize_eq hscan, Tokenizer.rowOf]
  simp [Scan.over, inside, hreverse]

end Coffee

end CodeEditing.Lexing
