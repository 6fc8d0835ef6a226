import CodeEditing.Proofs.Lexing.CoffeeTable
import CodeEditing.Proofs.Lexing.Walk
import CodeEditing.Proofs.Lint.Parameters

/-! What CoffeeScript rules take from plain text.

Where none of the marks of `marks` comes up, no rule of the state `start` opens a string, a pattern or
a comment. The rules left are of three sorts. Two have a parameter list in their pattern, with the
arrow behind it; two take a single bracket, and make a bracket token of it; all others take no
bracket. Hence a rule that takes text either takes nothing that stands outside of parameter lists, and
makes no bracket token, or takes a bracket that stands outside (`firstMatch_start`). That a bracket
which opens a list is not taken alone is due to the order of the rules (`list_before_open`). -/
namespace CodeEditing.Lint

open Lexing Lexing.Coffee

/-- The marks that open strings, embedded scripts, comments and patterns. -/
def marks : List Char := ['\'', '"', '\x60', '#', '/']

/-- Whether tokens of the kind are brackets. -/
def isBracket (k : Kind) : Bool := k.isOpenParen || k.isCloseParen

/-! ### Parameter lists in patterns -/

def blanksForm : Pattern := .times true 0 none (.one .blank)

def listForm : Pattern :=
  .seq (.text ['('])
    (.seq (.times true 0 none (.one (.compl (.unionAll [.only ')'])))) (.text [')']))

def arrowForm : Pattern := .seq (.one (.union (.only '-') (.only '='))) (.text ['>'])

/-- Blanks and an arrow, in groups of the numbers. -/
def behindForm (m n : Nat) : Pattern := .seq (.group m blanksForm) (.group n arrowForm)

theorem takes_list {s t : Spot} :
    listForm.Takes s t ↔ ∃ inner, ')' ∉ inner ∧ s.Reads ('(' :: (inner ++ [')'])) t := by
  have hset : ∀ {cs : List Char}, (∀ c ∈ cs,
      (CharSet.compl (.unionAll [.only ')'])).contains c = true) ↔ ')' ∉ cs := by
    intro cs
    have hone : ∀ c, (CharSet.compl (.unionAll [.only ')'])).contains c = true ↔ c ≠ ')' := by
      intro c
      simp [CharSet.unionAll, CharSet.contains]
    simp only [hone]
    exact ⟨fun h hc => h _ hc rfl, fun h c hc he => h (he ▸ hc)⟩
  constructor
  · rintro ⟨u, hu, v, hv, ht⟩
    obtain ⟨inner, hinner, hcs⟩ := (Pattern.takes_many true).1 hv
    exact ⟨inner, hset.1 hcs, Spot.Reads.append hu (hinner.append ht)⟩
  · rintro ⟨inner, hinner, h⟩
    obtain ⟨u, hu, h⟩ := Spot.reads_append (a := ['(']).1 h
    obtain ⟨v, hv, ht⟩ := Spot.reads_append.1 h
    exact ⟨u, hu, v, (Pattern.takes_many true).2 ⟨inner, hv, hset.2 hinner⟩, ht⟩

theorem takes_behind {m n : Nat} {s t : Spot} :
    (behindForm m n).Takes s t ↔ ∃ blanks c, (∀ b ∈ blanks, Text.isBlank b = true) ∧
      (c = '-' ∨ c = '=') ∧ s.Reads (blanks ++ [c, '>']) t := by
  have hsign : ∀ c, (CharSet.union (.only '-') (.only '=')).contains c = true ↔
      c = '-' ∨ c = '=' := by
    intro c
    rw [CharSet.contains]
    simp
  constructor
  · rintro ⟨u, hu, v, ⟨c, hc, hset⟩, ht⟩
    obtain ⟨blanks, hblanks, hall⟩ := (Pattern.takes_many true).1 hu
    exact ⟨blanks, c, hall, (hsign c).1 hset, hblanks.append (Spot.Reads.append hc ht)⟩
  · rintro ⟨blanks, c, hall, hc, h⟩
    obtain ⟨u, hu, h⟩ := Spot.reads_append.1 h
    obtain ⟨v, hv, ht⟩ := (Spot.reads_append (a := [c])).1 h
    exact ⟨u, (Pattern.takes_many true).2 ⟨blanks, hu, hall⟩, v, ⟨c, hv, (hsign c).2 hc⟩, ht⟩

/-- What takes no bracket takes nothing that stands outside. -/
theorem outside_takes {p : Pattern} {s t : Spot} (hp : p.avoids brackets = true)
    (h : p.Takes s t) : outside s.rest = outside t.rest := by
  obtain ⟨cs, hcs, hnone⟩ := h.avoids hp
  rw [hcs.rest_eq, outside_append hnone]

theorem avoids_behind (m n : Nat) : (behindForm m n).avoids brackets = true := by
  show (blanksForm.avoids brackets && arrowForm.avoids brackets) = true
  decide

theorem arrowAhead_takes {m n : Nat} {s t : Spot} (h : (behindForm m n).Takes s t) :
    arrowAhead s.rest = true := by
  obtain ⟨blanks, c, hall, hc, h⟩ := takes_behind.1 h
  refine arrowAhead_iff.2 ⟨blanks, c, t.rest, ?_, hall, hc⟩
  rw [h.rest_eq, List.append_assoc]
  rfl

/-- A list with an arrow behind it does not stand outside. -/
theorem outside_takes_list {m n : Nat} {s t u : Spot} (h : listForm.Takes s t)
    (ha : (behindForm m n).Takes t u) : outside s.rest = outside u.rest := by
  obtain ⟨inner, hinner, hread⟩ := takes_list.1 h
  rw [← outside_takes (avoids_behind m n) ha, hread.rest_eq, List.cons_append, List.append_assoc]
  exact outside_list hinner (arrowAhead_takes ha)

/-! ### The forms of the rules -/

/-- The pattern of a parameter list with its arrow. -/
def listRuleForm : Pattern := .seq (.anchor .textStart) (.seq (.group 1 listForm) (behindForm 2 3))

/-- The pattern of a name. -/
def nameForm : Pattern :=
  .seq
    (.one (.unionAll [.only '$', .range 'A' 'Z', .range 'a' 'z', .only '_', .range '\x7f' '\uffff']))
    (.times true 0 none (.one (.unionAll [.only '$', .word, .range '\x7f' '\uffff'])))

/-- The pattern of a name that is given something, maybe with an at sign in front. -/
def givenForm (more : Pattern) : Pattern :=
  .seq (.group 1 (.seq (.times true 0 (some 1) (.text ['@'])) nameForm))
    (.seq (.group 2 blanksForm)
      (.seq (.group 3 (.one (.unionAll [.only '=', .only ':']))) (.seq (.group 4 blanksForm) more)))

/-- The pattern of a name that is given a function. -/
def functionForm : Pattern :=
  .seq (.anchor .textStart)
    (givenForm (.seq (.times true 0 (some 1) (.group 5 listForm)) (behindForm 6 7)))

/-- The pattern of a single bracket. -/
def bracketForm (set : CharSet) : Pattern := .seq (.anchor .textStart) (.one set)

def openSet : CharSet := .unionAll [.only '(', .only '[', .only '\x7b']

def closeSet : CharSet := .unionAll [.only ')', .only ']', .only '\x7d']

theorem takes_function {s t : Spot} (h : functionForm.Takes s t) :
    outside s.rest = outside t.rest := by
  obtain ⟨s, ⟨-, rfl⟩, a, ha, b, hb, c, hc, d, hd, u, ⟨n, -, hn, hlist⟩, ht⟩ := h
  have hgiven : (givenForm .empty).Takes s d := ⟨a, ha, b, hb, c, hc, d, hd, rfl⟩
  rw [outside_takes (by decide +kernel) hgiven]
  match n, hlist with
  | 0, hlist =>
    obtain rfl : u = d := hlist
    exact outside_takes (avoids_behind 6 7) ht
  | 1, ⟨v, hv, hlist⟩ =>
    obtain rfl : u = v := hlist
    exact outside_takes_list hv ht
  | n + 2, _ =>
    have : n + 2 ≤ max 0 1 := hn 1 rfl
    omega

theorem takes_listRule {s t : Spot} (h : listRuleForm.Takes s t) :
    outside s.rest = outside t.rest := by
  obtain ⟨s, ⟨-, rfl⟩, u, hu, ht⟩ := h
  exact outside_takes_list hu ht

/-- Where a list is ahead, the rule for lists takes it. -/
theorem listRule_takes {cs : List Char} (h : listAhead cs = true) :
    ∃ t, listRuleForm.Takes (.start cs) t := by
  obtain ⟨inner, behind, rfl, hinner, ha⟩ := listAhead_iff.1 h
  obtain ⟨blanks, c, more, rfl, hall, hc⟩ := arrowAhead_iff.1 ha
  have hlist : (Spot.start ('(' :: (inner ++ ')' :: (blanks ++ c :: '>' :: more)))).rest =
      '(' :: (inner ++ [')']) ++ (blanks ++ [c, '>'] ++ more) := by simp [Spot.start]
  obtain ⟨u, hu, hbehind⟩ := Spot.Reads.ofRest hlist
  obtain ⟨t, ht, -⟩ := Spot.Reads.ofRest hbehind
  exact ⟨t, _, ⟨rfl, rfl⟩, u, takes_list.2 ⟨inner, hinner, hu⟩,
    takes_behind.2 ⟨blanks, c, hall, hc, ht⟩⟩

/-! ### What the rules of the state `start` are -/

/-- Whether a rule makes no bracket token of what it takes. -/
def Quiet : TokenSpec → Prop
  | .kind k => isBracket k = false
  | .classify f => ∀ cs, isBracket (f cs) = false
  | .groups kinds => ∀ k ∈ kinds, isBracket k = false

/-- Whether a rule is quiet, if it is when it tells words apart. -/
def quiet : TokenSpec → Bool
  | .kind k => !isBracket k
  | .classify _ => true
  | .groups kinds => kinds.all (!isBracket ·)

/-- The kind of a rule that makes bracket tokens. -/
def bracketKind? : TokenSpec → Option Kind
  | .kind k => if isBracket k then some k else none
  | _ => none

/-- Whether a rule opens something that a mark has to stand for, or stays in its state and is of one of
the three sorts. -/
def ofSort (d : RuleDraft) (cs : List Char) : Bool :=
  (heldForm? cs).any fun p =>
    p.needs marks || (d.next.isNone && !d.merge &&
      (quiet d.token && (p.avoids brackets || p == functionForm || p == listRuleForm) ||
        (bracketKind? d.token).isSome && (p == bracketForm openSet || p == bracketForm closeSet)))

theorem startRules_ofSort : ∀ d ∈ startRules, ofSort d d.pattern.toList = true :=
  startTexts.2.all (by decide +kernel)

/-- No word is a bracket. -/
theorem classify_quiet (cs : List Char) : isBracket (words.classify cs) = false := by
  have hall : (words.fallback :: words.tiers.map Prod.fst).all (!isBracket ·) = true := by
    decide +kernel
  have hmem : words.classify cs ∈ words.fallback :: words.tiers.map Prod.fst := by
    unfold WordTiers.classify
    split
    · next kind _ hfind =>
      exact List.mem_cons_of_mem _ (List.mem_map_of_mem (List.mem_of_find?_eq_some hfind))
    · exact List.mem_cons_self
  simpa using List.all_eq_true.1 hall _ hmem

theorem quiet_of_mem {d : RuleDraft} (hd : d ∈ startRules) (h : quiet d.token = true) :
    Quiet d.token := by
  have hclassify : ∀ d ∈ startRules, ∀ f, d.token = .classify f → f = words.classify := by
    simp [startRules, ofKind, ofGroups]
  cases htoken : d.token with
  | kind k =>
    rw [htoken] at h
    simpa [Quiet, quiet] using h
  | classify f =>
    obtain rfl := hclassify d hd f htoken
    exact classify_quiet
  | groups kinds =>
    rw [htoken] at h
    exact fun k hk => by simpa using List.all_eq_true.1 h k hk

/-- What a rule of the state `start` is, by its pattern. -/
inductive StartRule (d : RuleDraft) (p : Pattern) : Prop
  | marked (h : p.needs marks = true)
  | plain (next : d.next = none) (merge : d.merge = false) (token : Quiet d.token)
      (form : p.avoids brackets = true ∨ p = functionForm ∨ p = listRuleForm)
  | bracket {k : Kind} (next : d.next = none) (merge : d.merge = false) (token : d.token = .kind k)
      (kind : isBracket k = true) (form : p = bracketForm openSet ∨ p = bracketForm closeSet)

theorem startRules_sort {d : RuleDraft} (hd : d ∈ startRules) :
    ∃ p, heldForm? d.pattern.toList = some p ∧ StartRule d p := by
  obtain ⟨p, hp, hsort⟩ := (Option.any_eq_true _ _).1 (startRules_ofSort d hd)
  refine ⟨p, hp, ?_⟩
  rcases Bool.or_eq_true_iff.1 hsort with h | h
  · exact .marked h
  · simp only [Bool.and_eq_true, Bool.or_eq_true, Option.isNone_iff_eq_none, Bool.not_eq_true',
      beq_iff_eq] at h
    obtain ⟨⟨hnext, hmerge⟩, ⟨htoken, hform⟩ | ⟨htoken, hform⟩⟩ := h
    · exact .plain hnext hmerge (quiet_of_mem hd htoken) (or_assoc.1 hform)
    · obtain ⟨k, hk⟩ := Option.isSome_iff_exists.1 htoken
      unfold bracketKind? at hk
      split at hk
      · next k' htoken =>
        obtain ⟨hkind, -⟩ := Option.ite_none_right_eq_some.1 hk
        exact .bracket hnext hmerge htoken hkind hform
      · exact nomatch hk

/-- Whether a rule for parameter lists comes before any for opening brackets. -/
def listFirst : List (List Char) → Bool
  | [] => true
  | cs :: more => heldForm? cs == some listRuleForm ||
      (heldForm? cs != some (bracketForm openSet) && listFirst more)

theorem list_before_open {rules before after : List RuleDraft} {texts : List (List Char)}
    {d : RuleDraft} (hw : Written rules texts) (h : listFirst texts = true)
    (hs : rules = before ++ d :: after)
    (hd : heldForm? d.pattern.toList = some (bracketForm openSet)) :
    ∃ q ∈ before, heldForm? q.pattern.toList = some listRuleForm := by
  induction before generalizing rules texts with
  | nil =>
    subst hs
    cases hw with
    | cons hcs _ =>
      subst hcs
      rw [listFirst, hd, bne_self_eq_false, Bool.false_and, Bool.or_false] at h
      exact absurd (eq_of_beq h) (by decide)
  | cons q before ih =>
    subst hs
    cases hw with
    | cons hcs hw =>
      subst hcs
      rcases Bool.or_eq_true_iff.1 h with h | h
      · exact ⟨q, List.mem_cons_self, eq_of_beq h⟩
      · obtain ⟨e, he, hform⟩ := ih hw (Bool.and_eq_true_iff.1 h).2 rfl
        exact ⟨e, List.mem_cons_of_mem q he, hform⟩

/-! ### The rule that is taken -/

/-- What taking a match does to the brackets ahead: a rule that makes no bracket token takes none that
stands outside, and one that does takes just one of those. -/
inductive Keeps (r : Rule) (m : Match.Span) (cs : List Char) : Prop
  | quiet (token : Quiet r.token) (same : outside cs = outside (cs.drop m.stop))
  | bracket {k : Kind} (token : r.token = .kind k) (kind : isBracket k = true)
      (shown : outside cs = cs.take m.stop ++ outside (cs.drop m.stop))

theorem mem_brackets {c : Char} :
    c ∈ brackets ↔ openSet.contains c = true ∨ closeSet.contains c = true := by
  simp [brackets, openSet, closeSet, CharSet.unionAll, CharSet.contains]
  tauto

section
variable {rules : List Rule} {cs : List Char} {i j : Nat} {d : RuleDraft} {r : Rule} {m : Match.Span}

theorem StartRule.keeps {p : Pattern} {t : Spot} (h : StartRule d p)
    (hd : d.Compiled Matcher.regex? names r) (hcs : ∀ c ∈ cs, c ∉ marks)
    (ht : p.Takes (.start cs) t) (hstop : t.index = m.stop)
    (hopen : p = bracketForm openSet → listAhead cs = false) :
    r.next = none ∧ r.merge = false ∧ Keeps r m cs := by
  have hnext : d.next = none → r.next = none := by
    intro hn
    have := hd.leads
    rwa [RuleDraft.Leads, hn] at this
  obtain ⟨front, hfront⟩ := ht.reads
  obtain ⟨-, hdrop⟩ := hfront.split
  rw [hstop] at hdrop
  cases h with
  | marked h =>
    obtain ⟨taken, htaken, c, hc, hmark⟩ := ht.needs h
    have : cs = taken ++ t.rest := htaken.rest_eq
    exact absurd hmark (hcs c (this ▸ List.mem_append_left _ hc))
  | plain next merge token form =>
    refine ⟨hnext next, hd.merge.trans merge, .quiet (hd.token ▸ token) ?_⟩
    show outside (Spot.start cs).rest = _
    rw [hdrop]
    rcases form with h | rfl | rfl
    · exact outside_takes h ht
    · exact takes_function ht
    · exact takes_listRule ht
  | @bracket k next merge token kind form =>
    refine ⟨hnext next, hd.merge.trans merge, .bracket (hd.token.trans token) kind ?_⟩
    have hone : ∃ set, p = bracketForm set ∧ ∀ c rest, set.contains c = true →
        cs = c :: rest → c ∈ brackets ∧ listAhead cs = false := by
      rcases form with rfl | rfl
      · exact ⟨openSet, rfl, fun c rest hc _ => ⟨mem_brackets.2 (.inl hc), hopen rfl⟩⟩
      · refine ⟨closeSet, rfl, fun c rest hc he => ⟨mem_brackets.2 (.inr hc), ?_⟩⟩
        rw [he]
        refine not_listAhead fun hcopen => ?_
        rw [hcopen] at hc
        exact absurd hc (by decide)
    obtain ⟨set, rfl, hset⟩ := hone
    obtain ⟨u, ⟨-, rfl⟩, c, hc, hin⟩ := ht
    obtain ⟨rest, rfl, rfl⟩ := hc
    obtain ⟨hmem, hlist⟩ := hset c rest hin rfl
    rw [← hstop]
    exact outside_bracket hlist hmem

/-- Where a rule for opening brackets is the first that matches, no parameter list is ahead. -/
theorem listAhead_of_before {front : List RuleDraft} {before : List Rule} {more : List RuleDraft}
    (hfront : List.Forall₂ (RuleDraft.Compiled Matcher.regex? names) front before)
    (hsplit : startRules = front ++ d :: more)
    (hd : heldForm? d.pattern.toList = some (bracketForm openSet))
    (hnone : ∀ q ∈ before, q.regex.find cs = none) : listAhead cs = false := by
  cases hl : listAhead cs with
  | false => rfl
  | true =>
    have hfirst : listFirst startTexts.1 = true := by decide +kernel
    obtain ⟨q, hq, hform⟩ := list_before_open startTexts.2 hfirst hsplit hd
    obtain ⟨r, hr, hcompiled⟩ := exists_compiled hfront hq
    obtain ⟨t, ht⟩ := listRule_takes hl
    have hfound := Pattern.held_complete ht
    rw [← compiled_isSome hcompiled hform, hnone r hr] at hfound
    exact nomatch hfound

/-- **The rule that is taken from plain text** takes some of it, stays in the state `start`, and either
takes nothing that stands outside or takes a bracket. -/
theorem firstMatch_start
    (hr : List.Forall₂ (RuleDraft.Compiled Matcher.regex? names) startRules rules)
    (hcs : ∀ c ∈ cs, c ∉ marks) (h : firstMatch cs i rules = some (j, r, m)) :
    0 < m.stop ∧ r.next = none ∧ r.merge = false ∧ Keeps r m cs := by
  obtain ⟨before, after, rfl, -, hm, hbefore⟩ := firstMatch_eq_some h
  have hdrop := List.forall₂_drop_append startRules before (r :: after) hr
  have hfront := List.forall₂_take_append startRules before (r :: after) hr
  generalize hn : startRules.drop before.length = behind at hdrop
  cases hdrop with
  | @cons d _ more _ hd _ =>
  have hsplit : startRules = startRules.take before.length ++ d :: more := by
    rw [← hn, List.take_append_drop]
  have hmem : d ∈ startRules := by
    rw [hsplit]
    exact List.mem_append_right _ List.mem_cons_self
  obtain ⟨p, hp, hsort⟩ := startRules_sort hmem
  obtain ⟨q, hq, hfit⟩ := (Option.any_eq_true _ _).1 (states_fit _ List.mem_cons_self d hmem)
  obtain rfl := Option.some.inj (hp.symm.trans hq)
  simp only [Bool.and_eq_true] at hfit
  rw [compiled_regex hd hp] at hm
  obtain ⟨whole, hwhole, rfl⟩ := Regex.exists_captures hm
  obtain ⟨t, ht, hstop⟩ := Pattern.held_sound hfit.1.1.2 hwhole
  have hpos : 0 < whole.stop := hstop ▸ ht.index_lt hfit.1.1.1
  refine ⟨hpos, hsort.keeps hd hcs ht hstop fun he => ?_⟩
  exact listAhead_of_before hfront hsplit (he ▸ hp) hbefore

/-- A character that no rule takes is no bracket. -/
theorem firstMatch_start_none
    (hr : List.Forall₂ (RuleDraft.Compiled Matcher.regex? names) startRules rules)
    {c : Char} (h : firstMatch (c :: cs) i rules = none) : c ∉ brackets := by
  have hset : ∀ set, (List.zipWith (fun _ cs => heldForm? cs == some (bracketForm set))
      startRules startTexts.1).any id = true → set.contains c = false := by
    intro set hany
    obtain ⟨d, hd, hform⟩ := startTexts.2.any hany
    obtain ⟨r, hmem, hcompiled⟩ := exists_compiled hr hd
    cases hc : set.contains c with
    | false => rfl
    | true =>
      have ht : (bracketForm set).Takes (.start (c :: cs)) ⟨some c, 1, cs⟩ :=
        ⟨_, ⟨rfl, rfl⟩, c, ⟨cs, rfl, rfl⟩, hc⟩
      have hfound := Pattern.held_complete ht
      rw [← compiled_isSome hcompiled (eq_of_beq hform),
        firstMatch_eq_none_iff.1 h r hmem] at hfound
      exact nomatch hfound
  intro hc
  rcases mem_brackets.1 hc with hc | hc
  · rw [hset openSet (by decide +kernel)] at hc
    exact nomatch hc
  · rw [hset closeSet (by decide +kernel)] at hc
    exact nomatch hc
end

end CodeEditing.Lint
