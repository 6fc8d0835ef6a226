import CodeEditing.Lexing.RuleTable

/-! Scanning lines.

A `Tokenizer` walks over a line from the state the line before ended in. At every place the rules
of the current state are tried in order on the rest of the line as a text of its own; the first
that matches gives tokens and may change the state. A character that no rule takes joins the
characters of the default kind before it. A rule that matches without taking a character makes no
progress: it is noted (`EmptyMatch`) and the character is taken as if no rule matched, or, when
scanning strictly, the scan fails. Once a line has as many tokens as the cap allows, the rest of it
becomes a single text token and the next line starts afresh. -/
namespace CodeEditing.Lexing

/-- A rule that matched without taking a character. -/
structure EmptyMatch where
  state : String
  rule : Nat
  offset : Nat
  deriving Repr, DecidableEq

def EmptyMatch.message (e : EmptyMatch) : String :=
  s!"rule {e.rule} of state {Text.quotedName e.state} matched the empty string at byte {e.offset}"

/-! ### Emitting tokens

Tokens under way are kept latest first. -/

/-- Adds a token, or appends its text to the latest one when merging and the kinds agree. -/
def push (merge : Bool) (kind : Kind) (value : List Char) (start : Nat) :
    List Token → List Token
  | [] => [⟨kind, value, start⟩]
  | last :: more =>
    if merge && last.kind == kind then {last with value := last.value ++ value} :: more
    else ⟨kind, value, start⟩ :: last :: more

/-- Adds the tokens of a group rule. `matched` is the text the rule took, `start` its column and
`cursor` how many of its characters are used up. A group that took nothing gives no token, nor does
one that begins before the cursor; the text between groups gets tokens of kind `text`. -/
def pushGroups (merge : Bool) (matched : List Char) (start : Nat) :
    Nat → List (Kind × Option Capture) → List Token → List Token
  | cursor, [], out =>
    let rest := matched.drop cursor
    if rest.isEmpty then out
    else push merge .text rest (start + Text.width (matched.take cursor)) out
  | cursor, (_, none) :: more, out => pushGroups merge matched start cursor more out
  | cursor, (kind, some g) :: more, out =>
    if g.start = g.stop || g.start < cursor then pushGroups merge matched start cursor more out
    else
      let gap := (matched.take g.start).drop cursor
      let out :=
        if gap.isEmpty then out
        else push merge .text gap (start + Text.width (matched.take cursor)) out
      let value := (matched.take g.stop).drop g.start
      let out := push merge kind value (start + Text.width (matched.take g.start)) out
      pushGroups merge matched start g.stop more out

/-- The groups of a rule in order, each with its kind and what it has taken in a match. -/
def Rule.groupsOf (rule : Rule) (kinds : List Kind) (m : Match) : List (Kind × Option Capture) :=
  kinds.zip ((List.range rule.regex.groupCount).map fun i => m.group? (i + 1))

/-- Adds the tokens of a match of `rule` that took `rest` up to the index `stop`; `start` is its column.
A group rule asks for the match again, with its groups. -/
def Rule.emit (rule : Rule) (rest : List Char) (stop start : Nat) (out : List Token) : List Token :=
  let matched := rest.take stop
  match rule.token with
  | .kind k => push rule.merge k matched start out
  | .classify f => push rule.merge (f matched) matched start out
  | .groups kinds =>
    match rule.regex.captures rest with
    | none => push rule.merge .text matched start out
    | some m => pushGroups rule.merge matched start 0 (rule.groupsOf kinds m) out

/-- The first of the rules that matches, numbered from `index` on, and where it does. -/
def firstMatch (rest : List Char) : Nat → List Rule → Option (Nat × Rule × Match.Span)
  | _, [] => none
  | index, r :: rs =>
    match r.regex.find rest with
    | some m => some (index, r, m)
    | none => firstMatch rest (index + 1) rs

/-! ### Walking over a line -/

/-- Where a scan stands: the state, the column, what is left of the line, the tokens so far and the
empty matches met, both latest first. -/
structure Scan where
  state : StateId
  offset : Nat
  rest : List Char
  tokens : List Token
  noted : List EmptyMatch

/-- Takes one character as the default kind of the state. -/
def Scan.skip (s : Scan) (kind : Kind) (c : Char) (cs : List Char) : Scan :=
  {s with
    offset := s.offset + c.utf8Size
    rest := cs
    tokens := push true kind [c] s.offset s.tokens}

/-- Takes the text a rule matched. -/
def Scan.take (s : Scan) (rule : Rule) (m : Match.Span) : Scan :=
  {s with
    state := rule.next.getD s.state
    offset := s.offset + Text.width (s.rest.take m.stop)
    rest := s.rest.drop m.stop
    tokens := rule.emit s.rest m.stop s.offset s.tokens}

/-- Makes the rest of the line a single text token and returns to the start. -/
def Scan.cut (s : Scan) : Scan :=
  {s with
    state := .start
    offset := s.offset + Text.width s.rest
    rest := []
    tokens := push false .text s.rest s.offset s.tokens}

/-- One step of a scan with something left: the scan after it, or the empty match that a strict scan
fails on. A state the table does not have ends the scan. -/
def Scan.step (t : RuleTable) (cap : Nat) (strict : Bool) (s : Scan) (c : Char) (cs : List Char) :
    Except EmptyMatch Scan :=
  if s.tokens.length ≥ cap then .ok s.cut
  else
    match t.state? s.state with
    | none => .ok {s with rest := []}
    | some st =>
      match firstMatch s.rest 0 st.rules with
      | none => .ok (s.skip st.defaultKind c cs)
      | some (index, rule, m) =>
        if m.stop = 0 then
          let e : EmptyMatch := ⟨st.name, index, s.offset⟩
          if strict then .error e
          else .ok {s.skip st.defaultKind c cs with noted := e :: s.noted}
        else .ok (s.take rule m)

theorem Scan.step_shorter {t : RuleTable} {cap : Nat} {strict : Bool} {s s' : Scan} {c : Char}
    {cs : List Char} (hs : s.rest = c :: cs) (h : s.step t cap strict c cs = .ok s') :
    s'.rest.length < s.rest.length := by
  rw [Scan.step] at h
  split at h
  · simp only [Except.ok.injEq] at h; subst h; simp [Scan.cut, hs]
  · split at h
    · simp only [Except.ok.injEq] at h; subst h; simp [hs]
    · split at h
      · simp only [Except.ok.injEq] at h; subst h; simp [Scan.skip, hs]
      · split at h
        · split at h
          · simp at h
          · simp only [Except.ok.injEq] at h; subst h; simp [Scan.skip, hs]
        · next hm =>
          simp only [Except.ok.injEq] at h; subst h
          simp only [Scan.take, List.length_drop, hs, List.length_cons]
          omega

/-- Walks to the end of the line. -/
def Scan.run (t : RuleTable) (cap : Nat) (strict : Bool) (s : Scan) : Except EmptyMatch Scan :=
  match _hs : s.rest with
  | [] => .ok s
  | c :: cs =>
    match _h : s.step t cap strict c cs with
    | .error e => .error e
    | .ok s' => Scan.run t cap strict s'
termination_by s.rest.length
decreasing_by simpa [_hs] using Scan.step_shorter _hs _h

/-! ### Tokenizers -/

/-- A rule table with the largest number of tokens a line is given. -/
structure Tokenizer where
  table : RuleTable
  cap : Nat

/-- The cap when none is asked for. -/
def defaultCap : Nat := 2000

namespace Tokenizer

/-- The name of a state; one the table does not have counts as the first. -/
def stateName (t : Tokenizer) (id : StateId) : String :=
  match t.table.state? id with
  | some st => st.name
  | none => startName

/-- A scan at the beginning of a line. A state the table does not have is taken for the first. -/
def enter (t : Tokenizer) (state : StateId) (line : List Char) : Scan :=
  ⟨if (t.table.state? state).isSome then state else .start, 0, line, [], []⟩

def scan (t : Tokenizer) (strict : Bool) (state : StateId) (line : List Char) :
    Except EmptyMatch Scan :=
  (t.enter state line).run t.table t.cap strict

/-- What a scan has found. -/
def rowOf (s : Scan) : Row := ⟨s.tokens.reverse, s.state⟩

/-- The tokens of a line, or the first empty match. -/
def tokenizeStrictly (t : Tokenizer) (state : StateId) (line : List Char) :
    Except EmptyMatch Row :=
  (t.scan true state line).map rowOf

/-- The tokens of a line, with the empty matches met on the way. -/
def tokenizeNoting (t : Tokenizer) (state : StateId) (line : List Char) :
    Row × List EmptyMatch :=
  match t.scan false state line with
  | .ok s => (rowOf s, s.noted.reverse)
  | .error _ => (⟨[⟨.text, line, 0⟩], state⟩, [])

/-- The tokens of a line. -/
def tokenize (t : Tokenizer) (state : StateId) (line : List Char) : Row :=
  (t.tokenizeNoting state line).1

/-- The tokens of consecutive lines, each starting in the state the one before ended in. -/
def tokenizeFrom (t : Tokenizer) (state : StateId) : List (List Char) → List Row
  | [] => []
  | line :: lines =>
    let row := t.tokenize state line
    row :: t.tokenizeFrom row.endState lines

/-- The tokens of a whole text. -/
def tokenizeLines (t : Tokenizer) (lines : List (List Char)) : List Row :=
  t.tokenizeFrom .start lines

end Tokenizer

end CodeEditing.Lexing
