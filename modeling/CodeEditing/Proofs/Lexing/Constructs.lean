import CodeEditing.Proofs.Lexing.Progress
import CodeEditing.Proofs.Lexing.Resumed
import CodeEditing.Proofs.Pattern.Marks

/-! Where the constructs of CoffeeScript that run over lines end.

Each of them has a state (`Construct`), with a rule that takes all up to its mark and closes it, and
all other rules stay in the state. The rule finds the first mark there is (`Construct.end?`), and
behind it the line goes on as if it began there, in the state `start` (`StateOf.run_closed`). When
there is none, the whole line belongs to the construct (`StateOf.run_open`). A block comment is read
character by character, and its characters join (`StateOf.run_comment`); a here-pattern that stays
open is made of blanks, with a comment behind them at most, and of all else (`InHeregex.run`).
`construct_ends_at_mark` puts this together. -/
namespace CodeEditing.Lexing.Coffee

/-! ### Constructs -/

/-- What may run over several lines: here-documents, strings, embedded scripts, here-patterns and
block comments. -/
inductive Construct where
  | qdoc
  | qqdoc
  | qstring
  | qqstring
  | js
  | heregex
  | comment
  deriving Repr, DecidableEq

namespace Construct

/-- The name of the state inside of the construct. -/
def stateName : Construct → String
  | qdoc => "qdoc"
  | qqdoc => "qqdoc"
  | qstring => "qstring"
  | qqstring => "qqstring"
  | js => "js"
  | heregex => "heregex"
  | comment => "comment"

/-- The kind of the token that ends the construct. -/
def kind : Construct → Kind
  | heregex => .stringRegex
  | comment => .comment
  | _ => .string

/-- The kinds of the tokens inside of the construct. -/
def kinds : Construct → List Kind
  | heregex => [.stringRegex, .commentRegex]
  | c => [c.kind]

/-- The flags of a here-pattern. -/
def flags : List Char := ['i', 'm', 'g', 'y']

/-- How many characters of a line there are up to the end of the first mark that ends the construct.
Up to four flags belong to the mark of a here-pattern. -/
def end? : Construct → List Char → Option Nat
  | qdoc, line => Text.markEnd? ['\'', '\'', '\''] line
  | qqdoc, line => Text.markEnd? ['"', '"', '"'] line
  | qstring, line => Text.quoteEnd? '\'' line
  | qqstring, line => Text.quoteEnd? '"' line
  | js, line => Text.quoteEnd? '\x60' line
  | heregex, line => (Text.markEnd? ['/', '/', '/'] line).map fun k =>
      k + (((line.drop k).take 4).takeWhile flags.contains).length
  | comment, line => Text.markEnd? ['#', '#', '#'] line

theorem end?_pos {c : Construct} {line : List Char} {k : Nat} (h : c.end? line = some k) :
    line ≠ [] ∧ 0 < k := by
  constructor
  · rintro rfl
    cases c <;> cases h
  · cases c with
    | qdoc | qqdoc | comment =>
      obtain ⟨i, -, rfl⟩ := Option.map_eq_some_iff.1 h
      exact Nat.zero_lt_succ _
    | qstring | qqstring | js => exact Text.quoteEnd?_pos h
    | heregex =>
      obtain ⟨j, hj, rfl⟩ := Option.map_eq_some_iff.1 h
      obtain ⟨i, -, rfl⟩ := Option.map_eq_some_iff.1 hj
      exact Nat.add_pos_left (Nat.zero_lt_succ _) _

/-! ### Rules -/

/-- The pattern of the rule that closes the construct. -/
def pattern : Construct → String
  | qdoc => ".*?'''"
  | qqdoc => ".*?\"\"\""
  | qstring => r"[^\\']*(?:\\.[^\\']*)*'"
  | qqstring => r#"[^\\"]*(?:\\.[^\\"]*)*""#
  | js => r"[^\\`]*(?:\\.[^\\`]*)*`"
  | heregex => ".*?///[imgy]\x7b0,4\x7d"
  | comment => "###"

open Pattern in
/-- What the pattern is read as. -/
def form : Construct → Pattern
  | qdoc => seq sparingly (text ['\'', '\'', '\''])
  | qqdoc => seq sparingly (text ['"', '"', '"'])
  | qstring => quoted '\''
  | qqstring => quoted '"'
  | js => quoted '\x60'
  | heregex => seq sparingly (seq (text ['/', '/', '/'])
      (times true 0 (some 4) (one (.unionAll (flags.map .only)))))
  | comment => text ['#', '#', '#']

theorem heldForm?_pattern (c : Construct) :
    heldForm? c.pattern.toList = some c.form.held := by
  cases c <;> decide +kernel

/-- What the closing rule takes: all up to the mark, only a block comment is read up to it
beforehand. -/
def closesAt? : Construct → List Char → Option Nat
  | comment, rest => if ['#', '#', '#'].isPrefixOf rest then some 3 else none
  | c, rest => c.end? rest

theorem closesAt?_eq {c : Construct} (hc : c ≠ comment) : c.closesAt? = c.end? := by
  cases c with
  | comment => exact absurd rfl hc
  | _ => rfl

theorem search_form {rest : List Char} (hrest : '\n' ∉ rest) (c : Construct) :
    (c.form.held.matcher.search rest).map (·.stop) = c.closesAt? rest := by
  cases c with
  | qdoc | qqdoc => exact Pattern.search_mark _ hrest
  | qstring | qqstring | js => exact Pattern.search_quote (by decide) hrest
  | comment => exact Pattern.search_word _ rest
  | heregex =>
    have hset : (CharSet.unionAll (flags.map .only)).contains = flags.contains := by
      funext c
      rw [Bool.eq_iff_iff]
      simp [flags, CharSet.unionAll, CharSet.contains, or_assoc]
    rw [form, Pattern.search_mark_many _ 4 _ hrest, hset]
    rfl

/-- The rules behind the closing one. -/
def others : Construct → List RuleDraft
  | heregex => [ofKind r"\s+(?:#.*)?" .commentRegex, ofKind r"\S+" .stringRegex]
  | comment => []
  | c => [ofKind ".+" c.kind]

/-- The closing rule. -/
def closing (c : Construct) : RuleDraft :=
  {ofKind c.pattern c.kind "start" with merge := c == comment}

/-- The draft of the state inside of the construct. -/
def draft (c : Construct) : StateDraft :=
  ⟨c.stateName, c.closing :: c.others, if c = comment then some .comment else none⟩

theorem draft_mem (c : Construct) : c.draft ∈ states := by
  cases c with
  | qdoc => exact List.mem_of_getElem? (i := 1) rfl
  | qqdoc => exact List.mem_of_getElem? (i := 2) rfl
  | qstring => exact List.mem_of_getElem? (i := 3) rfl
  | qqstring => exact List.mem_of_getElem? (i := 4) rfl
  | js => exact List.mem_of_getElem? (i := 5) rfl
  | heregex => exact List.mem_of_getElem? (i := 6) rfl
  | comment => exact List.mem_of_getElem? (i := 7) rfl

end Construct

/-- A state of the draft is found in the table by its name. -/
theorem exists_state {t : RuleTable} (ht : Coffee.draft.build = .ok t) {d : StateDraft}
    (hd : d ∈ states) :
    ∃ id st, t.find? d.name = some id ∧ t.state? id = some st ∧ d.Compiled Matcher.regex? names st := by
  obtain ⟨all, ho, -, hstates⟩ := TableDraft.build_eq_ok ht
  obtain rfl := Option.some.inj (ordered_eq.symm.trans ho)
  have hn : (t.states.map (·.name)).Nodup := by
    rw [map_name_compiled hstates]
    exact (by decide : names.Nodup)
  obtain ⟨i, hi, rfl⟩ := List.getElem_of_mem hd
  have hi' : i < t.states.length := hstates.length_eq ▸ hi
  have hcompiled : states[i].Compiled Matcher.regex? names t.states[i] :=
    (List.forall₂_iff_get.1 hstates).2 i hi hi'
  have hstate : t.state? ⟨i⟩ = some t.states[i] := List.getElem?_eq_getElem hi'
  exact ⟨⟨i⟩, t.states[i], (RuleTable.find?_eq_some_iff hn).2 ⟨_, hstate, hcompiled.name⟩, hstate,
    hcompiled⟩

/-- A state of a table is that inside of the construct: its first rule closes it. -/
structure StateOf (c : Construct) (t : RuleTable) (id : StateId) (close : Rule)
    (more : List Rule) : Prop where
  found : t.find? c.stateName = some id
  state : t.state? id =
    some ⟨c.stateName, close :: more, if c = .comment then .comment else .text⟩
  find {rest : List Char} (hrest : '\n' ∉ rest) :
    (close.regex.find rest).map (·.stop) = c.closesAt? rest
  token : close.token = .kind c.kind
  merge : close.merge = (c == .comment)
  next : close.next = some .start
  more : List.Forall₂ (RuleDraft.Compiled Matcher.regex? names) c.others more

theorem exists_stateOf {t : RuleTable} (ht : Coffee.draft.build = .ok t) (c : Construct) :
    ∃ id close more, StateOf c t id close more := by
  obtain ⟨id, ⟨name, rules, defaultKind⟩, hfound, hstate, hname, hrules, hkind⟩ :=
    exists_state ht c.draft_mem
  obtain rfl : name = c.stateName := hname
  cases hrules with
  | @cons _ close _ more hclose hmore =>
  have hleads : ∃ j, names.findIdx? (· == "start") = some j ∧ close.next = some ⟨j⟩ := hclose.leads
  obtain ⟨j, hj, hnext⟩ := hleads
  obtain rfl : 0 = j := Option.some.inj ((by decide : some 0 = _).trans hj)
  refine ⟨id, close, more, hfound, ?_, fun hrest => ?_, hclose.token, hclose.merge, hnext, hmore⟩
  · rw [hstate, show defaultKind = _ from hkind]
    cases c <;> rfl
  · rw [compiled_stop hclose c.heldForm?_pattern, c.search_form hrest]

/-! ### Inside of a construct -/

/-- The tokens of a text that is all of one kind. -/
def whole (kind : Kind) (text : List Char) : List Token :=
  if text = [] then [] else [⟨kind, text, 0⟩]

/-- There is room for more than the one token. -/
theorem room_whole {cap : Nat} (hcap : 1 < cap) (kind : Kind) (text : List Char) :
    (whole kind text).length < cap := by
  rw [whole]
  split
  · exact Nat.zero_lt_of_lt hcap
  · exact hcap

theorem push_whole {merge : Bool} {kind : Kind} {front value : List Char} (hv : value ≠ [])
    (h : front = [] ∨ merge = true) :
    push merge kind value (Text.width front) (whole kind front) = whole kind (front ++ value) := by
  cases front with
  | nil =>
    rw [whole, whole, if_pos rfl, List.nil_append, if_neg hv]
    rfl
  | cons c front =>
    obtain rfl : merge = true := h.resolve_left (List.cons_ne_nil c front)
    simp [whole, push]

/-- A scan that has read some of a line inside of a construct. -/
def inside (id : StateId) (kind : Kind) (front rest : List Char) : Scan :=
  ⟨id, Text.width front, rest, whole kind front, []⟩

/-- A scan of a line in the state `start`. -/
def afresh (rest : List Char) : Scan := ⟨.start, 0, rest, [], []⟩

/-- A scan that goes on in the state `start` behind a text of one kind. -/
def behind (kind : Kind) (front rest : List Char) : Scan :=
  (afresh rest).onTop (whole kind front) (Text.width front)

namespace StateOf
variable {c : Construct} {t : RuleTable} {id : StateId} {close : Rule} {more : List Rule}
  {cap k : Nat} {x : Char} {line front rest xs : List Char}

theorem missed (h : StateOf c t id close more) (hrest : '\n' ∉ rest)
    (hnone : c.closesAt? rest = none) : close.regex.find rest = none :=
  Option.map_eq_none_iff.1 ((h.find hrest).trans hnone)

/-- The closing rule makes all that has been read one token, and leads to `start`. -/
theorem step_close (h : StateOf c t id close more) (hcap : 1 < cap) (hrest : '\n' ∉ x :: xs)
    (hk : c.closesAt? (x :: xs) = some k) (hpos : 0 < k) (hfront : front = [] ∨ c = .comment) :
    (inside id c.kind front (x :: xs)).step t cap false x xs =
      .ok (behind c.kind (front ++ (x :: xs).take k) ((x :: xs).drop k)) := by
  obtain ⟨m, hm, rfl⟩ := Option.map_eq_some_iff.1 ((h.find hrest).trans hk)
  have hmerge : front = [] ∨ close.merge = true := by
    refine hfront.imp_right ?_
    rintro rfl
    exact h.merge
  have htaken : (x :: xs).take m.stop ≠ [] := by simp [Nat.ne_of_gt hpos]
  have hfirst : firstMatch (x :: xs) 0 (close :: more) = some (0, close, m) := by
    rw [firstMatch, hm]
  have hbehind : (inside id c.kind front (x :: xs)).take close m =
      behind c.kind (front ++ (x :: xs).take m.stop) ((x :: xs).drop m.stop) := by
    simp [Scan.take, Rule.emit, h.token, h.next, push_whole htaken hmerge, inside, behind, afresh,
      Scan.onTop, onTop]
  rw [← hbehind]
  exact Scan.Moves.step rfl (.take (room_whole hcap c.kind front) h.state hfirst hpos)

/-- A block comment is read character by character, up to the mark or to the end of the line. -/
theorem run_comment (h : StateOf .comment t id close more) (hcap : 1 < cap) (front : List Char)
    (hrest : '\n' ∉ rest) : (inside id .comment front rest).run t cap false =
      match Construct.comment.end? rest with
      | none => .ok (inside id .comment (front ++ rest) [])
      | some k => (behind .comment (front ++ rest.take k) (rest.drop k)).run t cap false := by
  induction rest generalizing front with
  | nil =>
    rw [Scan.run_nil rfl, List.append_nil]
    rfl
  | cons x xs ih =>
    rw [Construct.end?, Text.markEnd?_cons]
    by_cases hmark : List.isPrefixOf ['#', '#', '#'] (x :: xs) = true
    · have hstep : (inside id .comment front (x :: xs)).step t cap false x xs =
          .ok (behind .comment (front ++ (x :: xs).take 3) ((x :: xs).drop 3)) :=
        h.step_close hcap hrest (if_pos hmark) (Nat.zero_lt_succ 2) (.inr rfl)
      rw [if_pos hmark]
      exact Scan.run_step rfl hstep
    · have hmissed : close.regex.find (x :: xs) = none := h.missed hrest (if_neg hmark)
      have hstep : (inside id .comment front (x :: xs)).step t cap false x xs =
          .ok (inside id .comment (front ++ [x]) xs) := by
        have hnone : firstMatch (x :: xs) 0 (close :: more) = none := by
          cases h.more
          rw [firstMatch, hmissed, firstMatch]
        have hstate : t.state? id = some ⟨Construct.comment.stateName, close :: more, .comment⟩ :=
          h.state
        refine (Scan.Moves.step rfl
          (.skip (room_whole hcap .comment front) hstate rfl hnone)).trans ?_
        simp [Scan.skip, push_whole, inside]
      rw [if_neg hmark, Scan.run_step rfl hstep, ih _ fun hx => hrest (List.mem_cons_of_mem x hx),
        Construct.end?]
      cases Text.markEnd? ['#', '#', '#'] xs with
      | none => simp
      | some k => simp

/-- **A construct that is closed** is one token, and behind it the line goes on in the state
`start`. -/
theorem run_closed (h : StateOf c t id close more) (hcap : 1 < cap) (hline : '\n' ∉ line)
    (hend : c.end? line = some k) : (inside id c.kind [] line).run t cap false =
      (behind c.kind (line.take k) (line.drop k)).run t cap false := by
  obtain ⟨hne, hpos⟩ := Construct.end?_pos hend
  by_cases hc : c = .comment
  · subst hc
    have := h.run_comment hcap [] hline
    rwa [hend] at this
  · obtain ⟨x, xs, rfl⟩ := List.exists_cons_of_ne_nil hne
    have hcloses : c.closesAt? (x :: xs) = some k := by rwa [Construct.closesAt?_eq hc]
    exact Scan.run_step rfl (h.step_close hcap hline hcloses hpos (.inl rfl))

/-- **A construct that stays open** is one token at most, and the state stays, unless it is a
here-pattern. -/
theorem run_open (h : StateOf c t id close more) (hcap : 1 < cap) (hline : '\n' ∉ line)
    (hend : c.end? line = none) (hc : c ≠ .heregex) :
    (inside id c.kind [] line).run t cap false = .ok (inside id c.kind line []) := by
  by_cases hcomment : c = .comment
  · subst hcomment
    have := h.run_comment hcap [] hline
    rwa [hend] at this
  · have hmissed : close.regex.find line = none :=
      h.missed hline (by rwa [Construct.closesAt?_eq hcomment])
    have hothers : c.others = [ofKind ".+" c.kind] := by
      cases c with
      | comment => exact absurd rfl hcomment
      | heregex => exact absurd rfl hc
      | _ => rfl
    cases line with
    | nil => exact Scan.run_nil rfl
    | cons x xs =>
      have hmore := h.more
      rw [hothers] at hmore
      cases hmore with
      | @cons _ r _ more hr hnil =>
      cases hnil
      have hform : heldForm? ".+".toList =
          some (Pattern.times true 1 none (.one .inLine)).held := by decide +kernel
      have hfound := Pattern.search_line hline
      rw [← compiled_stop hr hform, if_neg (List.cons_ne_nil x xs)] at hfound
      obtain ⟨m, hm, hstop⟩ := Option.map_eq_some_iff.1 hfound
      have hnext : r.next = none := hr.leads
      have hstep : (inside id c.kind [] (x :: xs)).step t cap false x xs =
          .ok (inside id c.kind (x :: xs) []) := by
        have hfirst : firstMatch (x :: xs) 0 [close, r] = some (1, r, m) := by
          rw [firstMatch, hmissed, firstMatch, hm]
        have htake : (inside id c.kind [] (x :: xs)).take r m = inside id c.kind (x :: xs) [] := by
          simp [Scan.take, Rule.emit, hr.token, ofKind, hnext, hstop, inside, whole, push]
        rw [← htake]
        have hpos : 0 < m.stop := by simp [hstop]
        exact Scan.Moves.step rfl (.take (room_whole hcap c.kind []) h.state hfirst hpos)
      rw [Scan.run_step rfl hstep, Scan.run_nil rfl]

end StateOf

/-! ### Open here-patterns -/

open Pattern in
/-- Blanks, with a comment behind them at most. -/
def blanksForm : Pattern :=
  seq (times true 1 none (one .blank))
    (times true 0 (some 1) (seq (text ['#']) (times true 0 none (one .inLine))))

/-- Anything but blanks. -/
def wordForm : Pattern := .times true 1 none (.one (.compl .blank))

theorem heldForm?_blanks : heldForm? r"\s+(?:#.*)?".toList = some blanksForm.held := by
  decide +kernel

theorem heldForm?_word : heldForm? r"\S+".toList = some wordForm.held := by
  decide +kernel

theorem blanks_takes {x : Char} (xs : List Char) (hx : CharSet.blank.contains x = true) :
    blanksForm.held.Takes (.start (x :: xs)) ⟨some x, 1, xs⟩ :=
  ⟨_, ⟨rfl, rfl⟩, _, ⟨1, Nat.le_refl 1, nofun, _, ⟨x, ⟨xs, rfl, rfl⟩, hx⟩, rfl⟩,
    0, Nat.le_refl 0, fun _ _ => Nat.zero_le _, rfl⟩

theorem word_takes {x : Char} (xs : List Char) (hx : CharSet.blank.contains x = false) :
    wordForm.held.Takes (.start (x :: xs)) ⟨some x, 1, xs⟩ :=
  ⟨_, ⟨rfl, rfl⟩, 1, Nat.le_refl 1, nofun, _, ⟨x, ⟨xs, rfl, rfl⟩, congrArg Bool.not hx⟩, rfl⟩

section
variable {t : RuleTable} {id : StateId} {close : Rule} {more : List Rule} {cap : Nat}

/-- What does not close a here-pattern is taken by one of the rules that stay in it. -/
theorem StateOf.taken {rest : List Char} (h : StateOf .heregex t id close more)
    (hrest : '\n' ∉ rest) (hne : rest ≠ []) (hend : Construct.heregex.end? rest = none) :
    ∃ i r m, firstMatch rest 0 (close :: more) = some (i, r, m) ∧ r.next = none ∧ r.merge = false ∧
      ∃ kind ∈ Construct.heregex.kinds, r.token = .kind kind := by
  have hmissed : close.regex.find rest = none := h.missed hrest hend
  obtain ⟨x, xs, rfl⟩ := List.exists_cons_of_ne_nil hne
  obtain ⟨-, -, -, -, -, -, hmore⟩ := h
  rcases hmore with _ | @⟨_, blanks, _, _, hblanks, _ | @⟨_, word, _, _, hword, _ | _⟩⟩
  cases hb : blanks.regex.find (x :: xs) with
  | some m =>
    exact ⟨1, blanks, m, by simp [firstMatch, hmissed, hb], hblanks.leads, hblanks.merge,
      .commentRegex, by simp [Construct.kinds], hblanks.token⟩
  | none =>
    have hx : CharSet.blank.contains x = false := by
      refine Bool.eq_false_iff.2 fun hx => ?_
      have hfound := Pattern.held_complete (blanks_takes xs hx)
      rw [← compiled_isSome hblanks heldForm?_blanks, hb] at hfound
      cases hfound
    have hfound := Pattern.held_complete (word_takes xs hx)
    rw [← compiled_isSome hword heldForm?_word] at hfound
    obtain ⟨m, hm⟩ := Option.isSome_iff_exists.1 hfound
    exact ⟨2, word, m, by simp [firstMatch, hmissed, hb, hm], hword.leads, hword.merge,
      .stringRegex, by simp [Construct.kinds], hword.token⟩

/-- A scan that has not come out of a here-pattern, whose mark is not ahead either. -/
structure InHeregex (id : StateId) (s : Scan) : Prop where
  state : s.state = id
  line : '\n' ∉ s.rest
  unmarked : Text.markEnd? ['/', '/', '/'] s.rest = none
  kinds : ∀ token ∈ s.tokens, token.kind ∈ Construct.heregex.kinds

/-- A step that has room does not come out of a here-pattern whose mark is not there. -/
theorem InHeregex.moves (h : StateOf .heregex t id close more) (ht : t.Progresses) {s s' : Scan}
    (hs : InHeregex id s) (hne : s.rest ≠ []) (hm : Scan.Moves t cap false s s')
    (hroom : s.tokens.length < cap) : InHeregex id s' := by
  obtain ⟨hstate, hline, hunmarked, hkinds⟩ := hs
  have hend : Construct.heregex.end? s.rest = none := by rw [Construct.end?, hunmarked]; rfl
  obtain ⟨i, r, m, hfirst, hnext, hmerge, kind, hkind, htoken⟩ := h.taken hline hne hend
  have hst := h.state
  rw [← hstate] at hst
  cases hm with
  | cut full => exact absurd full (Nat.not_le.2 hroom)
  | lost room missing => cases missing.symm.trans hst
  | skip room found rest unmatched =>
    obtain rfl := Option.some.inj (hst.symm.trans found)
    cases hfirst.symm.trans unmatched
  | @note st _ _ index rule m room found rest matched nothing lenient =>
    have hstalls : s.Stalls t ⟨st.name, index, s.offset⟩ :=
      ⟨rfl, st, rule, m, found, rfl, matched, nothing⟩
    exact absurd hstalls ht.not_stalls
  | take room found matched some =>
    obtain rfl := Option.some.inj (hst.symm.trans found)
    obtain ⟨-, rfl, rfl⟩ : i = _ ∧ r = _ ∧ m = _ := by simpa using hfirst.symm.trans matched
    refine ⟨?_, fun hx => hline (List.mem_of_mem_drop hx), Text.markEnd?_drop hunmarked _, ?_⟩
    · rw [Scan.take, hnext]
      exact hstate
    · rw [Scan.take, Rule.emit, htoken, hmerge]
      dsimp only
      rw [push_false]
      exact List.forall_mem_cons.2 ⟨hkind, hkinds⟩

/-- **A here-pattern that stays open** stays so to the end of the line if the cap is not reached. -/
theorem InHeregex.run (h : StateOf .heregex t id close more) (ht : t.Progresses) {s s' : Scan}
    (hs : InHeregex id s) (hroomy : Scan.Roomy t cap s) (hrun : s.run t cap false = .ok s') :
    InHeregex id s' := by
  fun_induction Scan.run t cap false s with
  | case1 s hr => exact Except.ok.inj hrun ▸ hs
  | case2 s c cs hr e he => cases hrun
  | case3 s c cs hr next hstep ih =>
    have hne : s.rest ≠ [] := by simp [hr]
    have hnext := hs.moves h ht hne (Scan.step_moves hr hstep) (hroomy s (.here s) hne)
    exact ih hnext (fun mid hmid => hroomy mid (.step hr hstep hmid)) hrun

end

/-! ### Lines -/

/-- Nothing that the state `start` gives joins the token of a construct. -/
theorem afresh_apart {t : RuleTable} (ht : Coffee.draft.build = .ok t) (c : Construct)
    (front rest : List Char) : (afresh rest).Apart t (whole c.kind front) := by
  intro _ st hst
  obtain ⟨start, hstart, hrules, hkind⟩ := state?_start ht
  obtain rfl := Option.some.inj (hstart.symm.trans hst)
  refine ⟨fun rule hrule => ?_, fun last hlast => ?_⟩
  · have hplain : ∀ d ∈ startRules, d.merge = false := by decide
    obtain ⟨d, hd, hcompiled⟩ := exists_related hrules hrule
    exact hcompiled.merge.trans (hplain d hd)
  · rw [hkind]
    obtain rfl : ⟨c.kind, front, 0⟩ = last := by
      rw [whole] at hlast
      split at hlast
      · cases hlast
      · exact Option.some.inj hlast
    cases c <;> exact nofun

section
variable {c : Construct} {t : RuleTable} {id : StateId} {close : Rule} {more : List Rule}
  {cap : Nat} {line : List Char}

theorem StateOf.enter_eq (h : StateOf c t id close more) (cap : Nat) (kind : Kind) :
    (⟨t, cap⟩ : Tokenizer).enter id line = inside id kind [] line := by
  have hstate : (t.state? id).isSome = true := by rw [h.state]; rfl
  rw [Tokenizer.enter, if_pos hstate]
  rfl

theorem StateOf.scan_eq (h : StateOf c t id close more) (cap : Nat) (kind : Kind) :
    (⟨t, cap⟩ : Tokenizer).scan false id line = (inside id kind [] line).run t cap false := by
  rw [Tokenizer.scan, h.enter_eq cap kind]

/-- The row of a line behind a construct that is closed in it. -/
theorem StateOf.tokenize_closed (h : StateOf c t id close more) (ht : Coffee.draft.build = .ok t)
    (hcap : 1 < cap) (hline : '\n' ∉ line) {k : Nat} (hend : c.end? line = some k) :
    let later := (⟨t, cap - 1⟩ : Tokenizer).tokenize .start (line.drop k)
    (⟨t, cap⟩ : Tokenizer).tokenize id line =
      ⟨⟨c.kind, line.take k, 0⟩ :: later.tokens.map (·.shift (Text.width (line.take k))),
        later.endState⟩ := by
  intro later
  obtain ⟨hne, hpos⟩ := Construct.end?_pos hend
  have hwhole : whole c.kind (line.take k) = [⟨c.kind, line.take k, 0⟩] :=
    if_neg (by simp [hne, Nat.ne_of_gt hpos])
  obtain ⟨s, hs⟩ := Scan.run_lenient t (cap - 1) (afresh (line.drop k))
  have hlater : later = Tokenizer.rowOf s := Tokenizer.tokenize_eq <| by
    rw [Tokenizer.scan, Tokenizer.enter, ite_self]
    exact hs
  have hrun := Scan.run_onTop (Text.width (line.take k))
    (afresh_apart ht c (line.take k) (line.drop k)) hs
  rw [hwhole, List.length_singleton, Nat.sub_add_cancel (Nat.le_of_lt hcap)] at hrun
  have hscan := (h.scan_eq cap c.kind).trans (h.run_closed hcap hline hend)
  rw [behind, hwhole, hrun] at hscan
  rw [Tokenizer.tokenize_eq hscan, Tokenizer.rowOf_onTop, hlater]
  rfl

/-- The row of a line that a construct other than a here-pattern stays open in. -/
theorem StateOf.tokenize_open (h : StateOf c t id close more) (hcap : 1 < cap)
    (hline : '\n' ∉ line) (hend : c.end? line = none) (hc : c ≠ .heregex) :
    (⟨t, cap⟩ : Tokenizer).tokenize id line = ⟨whole c.kind line, id⟩ := by
  have hscan := (h.scan_eq cap c.kind).trans (h.run_open hcap hline hend hc)
  rw [Tokenizer.tokenize_eq hscan, Tokenizer.rowOf, inside, whole]
  split <;> rfl

/-- A row with no more tokens than the cap allows has not reached it. -/
theorem roomy_of_tokenize (hfew : ((⟨t, cap⟩ : Tokenizer).tokenize id line).tokens.length ≤ cap) :
    Scan.Roomy t cap ((⟨t, cap⟩ : Tokenizer).enter id line) := by
  obtain ⟨s, hs⟩ := Scan.run_lenient t cap ((⟨t, cap⟩ : Tokenizer).enter id line)
  have hscan : (⟨t, cap⟩ : Tokenizer).scan false id line = .ok s := hs
  rw [Tokenizer.tokenize_eq hscan, Tokenizer.rowOf, List.length_reverse] at hfew
  exact Scan.roomy_of_length_le hs hfew

theorem kind_mem_of_mem_whole {token : Token} (h : token ∈ whole c.kind line) :
    token.kind ∈ c.kinds := by
  have hkind : token.kind = c.kind := by
    rw [whole] at h
    split at h
    · cases h
    · rw [List.mem_singleton.1 h]
  rw [hkind]
  cases c <;> exact List.mem_cons_self

/-- The tokens and the end state of a line that a construct stays open in. -/
theorem StateOf.stays (h : StateOf c t id close more) (ht : t.Progresses) (hcap : 1 < cap)
    (hline : '\n' ∉ line) (hend : c.end? line = none)
    (hroomy : Scan.Roomy t cap ((⟨t, cap⟩ : Tokenizer).enter id line)) :
    let row := (⟨t, cap⟩ : Tokenizer).tokenize id line
    row.endState = id ∧ ∀ token ∈ row.tokens, token.kind ∈ c.kinds := by
  intro row
  by_cases hc : c = .heregex
  · subst hc
    obtain ⟨s, hs⟩ := Scan.run_lenient t cap (inside id .stringRegex [] line)
    have hrow : row = Tokenizer.rowOf s := Tokenizer.tokenize_eq ((h.scan_eq cap _).trans hs)
    have hfirst : InHeregex id (inside id .stringRegex [] line) :=
      ⟨rfl, hline, Option.map_eq_none_iff.1 hend, by simp [inside, whole]⟩
    rw [h.enter_eq cap .stringRegex] at hroomy
    obtain ⟨hstate, -, -, hkinds⟩ := hfirst.run h ht hroomy hs
    rw [hrow]
    exact ⟨hstate, fun token htoken => hkinds token (List.mem_reverse.1 htoken)⟩
  · rw [show row = _ from h.tokenize_open hcap hline hend hc]
    exact ⟨rfl, fun token => kind_mem_of_mem_whole⟩

end

/-- **Constructs end at their mark.** A line may begin inside of a construct. Where its mark comes
up, all up to there is one token, and the rest of the line gives the tokens and the end state that
it gives as a line of its own, from the state `start`, with a cap of one less. Where it does not,
the line is one token at most and the state stays. The line of a here-pattern may have more tokens,
all of the kinds that belong there, and the state stays as long as the cap is not reached; it is not
when there are no more tokens than it allows. -/
theorem construct_ends_at_mark (c : Construct) {cap : Nat} (hcap : 2 ≤ cap) {line : List Char}
    (hline : '\n' ∉ line) : ∃ id, table.find? c.stateName = some id ∧
      let t : Tokenizer := ⟨table, cap⟩
      let row := t.tokenize id line
      (∀ k, c.end? line = some k →
        let later := (⟨table, cap - 1⟩ : Tokenizer).tokenize .start (line.drop k)
        row = ⟨⟨c.kind, line.take k, 0⟩ ::
          later.tokens.map (·.shift (Text.width (line.take k))), later.endState⟩) ∧
      (c.end? line = none →
        (c ≠ .heregex → row = ⟨whole c.kind line, id⟩) ∧
        (Scan.Roomy table cap (t.enter id line) →
          row.endState = id ∧ ∀ token ∈ row.tokens, token.kind ∈ c.kinds) ∧
        (row.tokens.length ≤ cap → Scan.Roomy table cap (t.enter id line))) := by
  obtain ⟨id, close, more, h⟩ := exists_stateOf build_eq c
  refine ⟨id, h.found, fun k hend => h.tokenize_closed build_eq hcap hline hend, fun hend => ?_⟩
  exact ⟨h.tokenize_open hcap hline hend, h.stays table_progresses hcap hline hend,
    roomy_of_tokenize⟩

/-- A block comment is closed in front of a string. -/
theorem construct_ends_at_mark_comment : 2 ≤ 2 ∧ '\n' ∉ "é ###'a".toList ∧
    ∃ id, table.find? "comment" = some id ∧
      let later := (⟨table, 1⟩ : Tokenizer).tokenize .start "'a".toList
      (⟨table, 2⟩ : Tokenizer).tokenize id "é ###'a".toList =
        ⟨⟨.comment, "é ###".toList, 0⟩ :: later.tokens.map (·.shift 6), later.endState⟩ := by
  obtain ⟨id, hfound, hclosed, -⟩ :=
    @construct_ends_at_mark .comment 2 (by decide) "é ###'a".toList (by decide)
  exact ⟨by decide, by decide, id, hfound, hclosed 5 (by decide)⟩

end CodeEditing.Lexing.Coffee
