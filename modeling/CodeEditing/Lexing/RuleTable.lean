import CodeEditing.Lexing.Token
import CodeEditing.Pattern.Regex
import CodeEditing.Text.Lines
import CodeEditing.Text.Quoted

/-! Rule tables: the states of a line scanner and their rules.

A language is described by a draft (`TableDraft`): states by name, each with rules in order and
the kind of what no rule takes. `TableDraft.build` turns a draft into a `RuleTable`, in which
patterns are read and names of states have become places in the table, or says what is wrong with
the first bad rule (`TableFault`). The state `start` comes first in the table.

What reads the patterns is left open (`regex?`); `Matcher.regex?` is what the languages here are built
with. -/
namespace CodeEditing.Lexing

/-! ### Rules -/

/-- How a rule turns what it matched into tokens: one token of a fixed kind, one of a kind found
from its text, or one for each group that took something. -/
inductive TokenSpec where
  | kind (k : Kind)
  | classify (f : List Char → Kind)
  | groups (kinds : List Kind)

/-- A rule as a language definition writes it. `merge` lets its tokens join the token before them,
`next` names the state it leads to. -/
structure RuleDraft where
  pattern : String
  token : TokenSpec
  merge : Bool := false
  next : Option String := none

structure Rule where
  source : String
  regex : Regex
  token : TokenSpec
  merge : Bool
  next : Option StateId

/-- A named state: its rules, best first, and the kind of the characters that none of them takes. -/
structure LexState where
  name : String
  rules : List Rule
  defaultKind : Kind

/-- The states in order; the first one is `start`. -/
structure RuleTable where
  states : List LexState

namespace RuleTable

def state? (t : RuleTable) (id : StateId) : Option LexState := t.states[id.index]?

def size (t : RuleTable) : Nat := t.states.length

/-- The state of a name. -/
def find? (t : RuleTable) (name : String) : Option StateId :=
  (t.states.findIdx? (·.name == name)).map StateId.mk

end RuleTable

/-! ### Word lists -/

/-- Closed word lists with their kinds, the first that has a word decides; all other words are of
the fallback kind. -/
structure WordTiers where
  fallback : Kind
  tiers : List (Kind × List (List Char))

namespace WordTiers

def ofFallback (fallback : Kind) : WordTiers := ⟨fallback, []⟩

/-- Adds a last tier from words with bars between them; empty words do not count. -/
def tier (w : WordTiers) (kind : Kind) (words : String) : WordTiers :=
  {w with tiers := w.tiers ++ [(kind, (Text.cutAt '|' words.toList).filter (· ≠ []))]}

def classify (w : WordTiers) (word : List Char) : Kind :=
  match w.tiers.find? (·.2.contains word) with
  | some (kind, _) => kind
  | none => w.fallback

end WordTiers

/-! ### What may be wrong with a table -/

inductive TableFault where
  | missingStart
  | invalidPattern (state : String) (index : Nat) (pattern : String)
  | matchesEmpty (state : String) (index : Nat) (pattern : String)
  | unknownState (state : String) (index : Nat) (target : String)
  | groupMismatch (state : String) (index : Nat) (kinds groups : Nat)
  | tooManyStates
  deriving Repr, DecidableEq

/-- The largest number of states a table may have. -/
def maxStates : Nat := 65535

/-- Where a rule stands, for messages. -/
def rulePlace (state : String) (index : Nat) : String :=
  s!"state {Text.quotedName state} rule {index}"

def TableFault.message : TableFault → String
  | missingStart => "rule table has no \"start\" state"
  | invalidPattern state index pattern =>
    s!"{rulePlace state index}: invalid pattern {Text.quotedName pattern}"
  | matchesEmpty state index pattern =>
    s!"{rulePlace state index}: pattern {Text.quotedName pattern} matches the empty string"
  | unknownState state index target =>
    s!"{rulePlace state index}: transition to undeclared state {Text.quotedName target}"
  | groupMismatch state index kinds groups =>
    s!"{rulePlace state index}: {kinds} group kinds for {groups} capture groups"
  | tooManyStates => s!"rule table declares more than {maxStates} states"

/-! ### Drafts -/

structure StateDraft where
  name : String
  rules : List RuleDraft := []
  defaultKind : Option Kind := none

/-- The states of a language in the order of their first mention. -/
structure TableDraft where
  states : List StateDraft := []

namespace TableDraft

/-- Changes the state of a name, declaring it last when it is new. -/
def alter (name : String) (f : StateDraft → StateDraft) : List StateDraft → List StateDraft
  | [] => [f {name}]
  | s :: ss => if s.name = name then f s :: ss else s :: alter name f ss

/-- Adds rules behind those of a state, declaring it if needed. -/
def rules (d : TableDraft) (state : String) (more : List RuleDraft) : TableDraft :=
  ⟨alter state (fun s => {s with rules := s.rules ++ more}) d.states⟩

/-- Adds one rule behind those of a state, declaring it if needed. -/
def rule (d : TableDraft) (state : String) (r : RuleDraft) : TableDraft := d.rules state [r]

/-- Sets the kind of the characters no rule of a state takes, declaring it if needed. -/
def defaultKind (d : TableDraft) (state : String) (kind : Kind) : TableDraft :=
  ⟨alter state (fun s => {s with defaultKind := some kind}) d.states⟩

end TableDraft

/-- The name of the state every text starts in. -/
def startName : String := "start"

/-- A written pattern that is held at the start: it stands between a start mark with an opening group
and a closing one. -/
def heldText (cs : List Char) : List Char := ['^', '(', '?', ':'] ++ cs ++ [')']

/-- The expression of a draft's pattern, held at the start. -/
def RuleDraft.regex? (regex? : List Char → Option Regex) (d : RuleDraft) : Option Regex :=
  regex? (heldText d.pattern.toList)

section
variable (regex? : List Char → Option Regex) (names : List String)

/-- The rule a draft stands for. A pattern must be readable, must not match the empty text and must
have as many groups as a group rule gives kinds; the next state must be declared. -/
def RuleDraft.compile (state : String) (index : Nat) (d : RuleDraft) : Except TableFault Rule :=
  match d.regex? regex? with
  | none => .error (.invalidPattern state index d.pattern)
  | some regex =>
    if regex.occursIn [] then .error (.matchesEmpty state index d.pattern)
    else
      let misfit : Option Nat := match d.token with
        | .groups kinds => if kinds.length = regex.groupCount then none else some kinds.length
        | _ => none
      match misfit with
      | some kinds => .error (.groupMismatch state index kinds regex.groupCount)
      | none =>
        match d.next with
        | none => .ok ⟨d.pattern, regex, d.token, d.merge, none⟩
        | some target =>
          match names.findIdx? (· == target) with
          | none => .error (.unknownState state index target)
          | some i => .ok ⟨d.pattern, regex, d.token, d.merge, some ⟨i⟩⟩

/-- The rules of a state, numbered from `index` on. -/
def compileRules (state : String) : Nat → List RuleDraft → Except TableFault (List Rule)
  | _, [] => .ok []
  | index, d :: ds =>
    match d.compile regex? names state index with
    | .error e => .error e
    | .ok r =>
      match compileRules state (index + 1) ds with
      | .error e => .error e
      | .ok rs => .ok (r :: rs)

def compileStates : List StateDraft → Except TableFault (List LexState)
  | [] => .ok []
  | s :: ss =>
    match compileRules regex? names s.name 0 s.rules with
    | .error e => .error e
    | .ok rules =>
      match compileStates ss with
      | .error e => .error e
      | .ok states => .ok (⟨s.name, rules, s.defaultKind.getD .text⟩ :: states)

end

/-- The states with `start` in front. -/
def TableDraft.ordered (d : TableDraft) : Option (List StateDraft) :=
  match d.states.find? (·.name == startName) with
  | none => none
  | some s => some (s :: d.states.filter (·.name != startName))

/-- The table of a draft, whose patterns `regex?` reads. -/
def TableDraft.build (d : TableDraft) (regex? : List Char → Option Regex := Matcher.regex?) :
    Except TableFault RuleTable :=
  match d.ordered with
  | none => .error .missingStart
  | some states =>
    if states.length > maxStates then .error .tooManyStates
    else
      match compileStates regex? (states.map (·.name)) states with
      | .error e => .error e
      | .ok compiled => .ok ⟨compiled⟩

end CodeEditing.Lexing
