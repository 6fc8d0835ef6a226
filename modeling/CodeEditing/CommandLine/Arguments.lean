import CodeEditing.Folding.Indentation
import CodeEditing.Folding.Marked
import CodeEditing.Lexing.Scan
import CodeEditing.Text.Count

/-! Commands as they are asked for by arguments.

A command has a name, one file, and options. An option that takes a value has it behind an equals
sign or in the next argument, which then must not look like an option; no option may be given twice.
Behind a double dash there are only files. -/
namespace CodeEditing.CommandLine

open Folding (FoldMode Style)

/-- How the rows of a file fold. -/
inductive FoldRule where
  | coffee
  | indent
  | cstyle
  deriving Repr, DecidableEq

def FoldRule.known : List (String × FoldRule) :=
  [("coffee", coffee), ("indent", indent), ("cstyle", cstyle)]

def FoldRule.mode : FoldRule → FoldMode
  | coffee => Folding.coffeeMode
  | indent => Folding.indentMode ['#']
  | cstyle => Folding.BracketMarkers.cstyle.mode

inductive Command where
  /-- List the tokens of a file. -/
  | tokenize (path : String) (maxTokens : Nat)
  /-- List the folds of a file, or give the one at a row. -/
  | fold (path : String) (row : Option Nat) (style : Style) (rule : FoldRule)
  /-- Check the brackets of a file; the timeout is in milliseconds. -/
  | lint (path : String) (config : Option String) (inProcess : Bool) (timeout : Nat)
  deriving Repr, DecidableEq

/-! ### Files and options -/

/-- Files, options with values and options without, as far as they have been read. -/
structure Given where
  files : List String
  values : List (String × String)
  flags : List String

/-- Which options there are. -/
structure Options where
  valued : List String
  flags : List String

/-- Whether an argument is not taken for a file or a value. -/
def looksLikeOption (arg : String) : Bool :=
  match arg.toList with
  | '-' :: _ :: _ => true
  | _ => false

/-- The name of an option and the value behind its equals sign, if it is given in full. -/
def longOption? (arg : String) : Option (String × Option String) :=
  match arg.toList with
  | '-' :: '-' :: cs =>
    let name := String.ofList (cs.takeWhile (· != '='))
    match cs.dropWhile (· != '=') with
    | [] => some (name, none)
    | _ :: value => some (name, some (String.ofList value))
  | _ => none

/-- Adds the value of an option, unless it has one. -/
def Given.setValue (g : Given) (name value : String) : Option Given :=
  if (g.values.lookup name).isSome then none
  else some {g with values := g.values ++ [(name, value)]}

/-- Adds an option without value, unless it is there. -/
def Given.setFlag (g : Given) (name : String) : Option Given :=
  if g.flags.contains name then none else some {g with flags := g.flags ++ [name]}

/-- Reads arguments on. `waiting` is an option whose value comes next. -/
def read (o : Options) (g : Given) (waiting : Option String) : List String → Option Given
  | [] => if waiting.isSome then none else some g
  | arg :: more =>
    match waiting with
    | some name =>
      if looksLikeOption arg then none
      else (g.setValue name arg).bind fun g => read o g none more
    | none =>
      if arg = "--" then some {g with files := g.files ++ more}
      else
        match longOption? arg with
        | some (name, value) =>
          if o.valued.contains name then
            match value with
            | some v => (g.setValue name v).bind fun g => read o g none more
            | none => read o g (some name) more
          else if o.flags.contains name && value.isNone then
            (g.setFlag name).bind fun g => read o g none more
          else none
        | none =>
          if looksLikeOption arg then none
          else read o {g with files := g.files ++ [arg]} none more

/-! ### Commands -/

/-- The only file; it must have a name. -/
def Given.file? (g : Given) : Option String :=
  match g.files with
  | [path] => if path = "" then none else some path
  | _ => none

/-- The value of an option, or what counts without it. -/
def Given.value? (g : Given) (name : String) (parse : String → Option α) (without : α) : Option α :=
  match g.values.lookup name with
  | none => some without
  | some v => parse v

def count? (s : String) : Option Nat := Text.count? s.toList

def path? (s : String) : Option String := if s = "" then none else some s

def tokenize? (args : List String) : Option Command := do
  let g ← read ⟨["max-tokens"], []⟩ ⟨[], [], []⟩ none args
  some (.tokenize (← g.file?) (← g.value? "max-tokens" count? Lexing.defaultCap))

def fold? (args : List String) : Option Command := do
  let g ← read ⟨["row", "style", "mode"], []⟩ ⟨[], [], []⟩ none args
  let row ← g.value? "row" (fun s => (count? s).map some) none
  let style ← g.value? "style" (fun s => Style.known.lookup s) .markBegin
  let rule ← g.value? "mode" (fun s => FoldRule.known.lookup s) .coffee
  some (.fold (← g.file?) row style rule)

def lint? (args : List String) : Option Command := do
  let g ← read ⟨["config", "timeout-ms"], ["in-process"]⟩ ⟨[], [], []⟩ none args
  let config ← g.value? "config" (fun s => (path? s).map some) none
  let timeout ← g.value? "timeout-ms" count? 5000
  some (.lint (← g.file?) config (g.flags.contains "in-process") timeout)

/-- The command that arguments ask for, if they make sense. -/
def Command.ofArguments? : List String → Option Command
  | "tokenize" :: args => tokenize? args
  | "fold" :: args => fold? args
  | "lint" :: args => lint? args
  | _ => none

end CodeEditing.CommandLine
