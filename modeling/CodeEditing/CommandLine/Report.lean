import CodeEditing.CommandLine.Arguments
import CodeEditing.Document.Basic
import CodeEditing.Folding.Marked
import CodeEditing.Lexing.Coffee
import CodeEditing.Lexing.JsonForm
import CodeEditing.Worker.Exchange
import CodeEditing.Worker.Stream

/-! What commands print.

A command sees the world through the files it reads and the worker programs it can start
(`World`). Its `Report` is what it prints, what it complains of and its exit status: zero when all is
well, one when something was found or went wrong, two when the arguments make no sense. -/
namespace CodeEditing.CommandLine

open Document (Remark TextDocument)
open Json (Value)
open Worker (Config Effect Host HostMessage Output Program)

/-- The files a command can read, the path of the user's settings, and the worker programs. A program
that cannot be started gives the reason. -/
structure World where
  read : String → Except Files.Fault String
  userConfig : Option String
  program : Config → Except String Program

structure Report where
  status : Nat
  output : String
  complaint : Option String
  deriving Repr, DecidableEq

namespace Report

/-- All is well. -/
def fine (output : String) : Report := ⟨0, output, none⟩

/-- Something was found. -/
def found (output : String) : Report := ⟨1, output, none⟩

/-- Something went wrong. -/
def failed (complaint : String) : Report := ⟨1, "", some complaint⟩

/-- The arguments make no sense. -/
def misused : Report := ⟨2, "", none⟩

end Report

/-! ### Tokens -/

/-- The lines of a file. The last line end does not begin another line, and a carriage return belongs
to a line end only before a line feed. -/
def fileLines (text : List Char) : List (List Char) :=
  let pieces := Text.cutAt '\n' text
  let last := pieces.getLastD []
  pieces.dropLast.map Text.dropReturn ++ (if last.isEmpty then [] else [last])

/-- The tokens of the lines of a file, as JSON over several lines. -/
def tokenList (maxTokens : Nat) (text : List Char) : String :=
  let t : Lexing.Tokenizer := ⟨Lexing.Coffee.table, maxTokens⟩
  let row (r : Lexing.Row × Nat) : Value :=
    .object [("row", .ofNat r.2), ("end_state", .string (t.stateName r.1.endState)),
      ("tokens", .array (r.1.tokens.map Lexing.Token.toJson))]
  (Value.array ((t.tokenizeLines (fileLines text)).zipIdx.map row)).indentedText ++ "\n"

/-! ### Folds -/

/-- The fold at a row, or all folds. -/
def foldReport (lines : List Document.Line) (row : Option Nat) (style : Folding.Style)
    (rule : FoldRule) : Report :=
  match row with
  | none =>
    .fine (String.join ((Folding.foldRanges rule.mode lines style).map fun r => r.text ++ "\n"))
  | some row =>
    match rule.mode.rangeAt lines row style with
    | some r => .fine (r.text ++ "\n")
    | none => .found s!"no fold starts at row {row}\n"

/-! ### Brackets -/

/-- Milliseconds in the largest unit that is not less than one. -/
def durationText (ms : Nat) : String :=
  if ms = 0 then "0ns"
  else if ms < 1000 then s!"{ms}ms"
  else
    let digits := (toString (1000 + ms % 1000)).toList.drop 1
    let fraction := (digits.reverse.dropWhile (· == '0')).reverse
    if fraction.isEmpty then s!"{ms / 1000}s" else s!"{ms / 1000}.{String.ofList fraction}s"

/-- The remarks that the effects leave shown, if they say anything of remarks. -/
def verdict? (effects : List Effect) : Option (List Remark) :=
  effects.foldl (fun known e => match e with | .annotate remarks => some remarks | _ => known) none

/-- What a worker finds in a text, or why there is no verdict within the timeout. -/
def findFault (program : Config → Except String Program) (config : Config) (text : List Char)
    (timeout : Nat) : Except String (Option Remark) :=
  let name := "text"
  let started := program config
  let host : Host := ⟨.ofConfig config, [(name, .ofText text)]⟩
  match host.act fun c => c.start (started.map fun _ => ()) with
  | (_, .error e, _) => .error e.message
  | (host, .ok (), greeting) =>
    match host.attach name with
    | (_, .error e, _) => .error e.message
    | (host, .ok (), sent) =>
      let late := s!"worker gave no verdict within {durationText timeout}"
      if timeout = 0 then .error late
      else
        let outputs := match started with
          | .ok p => p (Worker.posts (greeting ++ sent))
          | .error _ => []
        let client := outputs.foldl Worker.Client.receive host.client.bindRemarks.client
        match {host with client}.act Worker.Client.pumpWaiting with
        | (_, .error e, _) => .error e.message
        | (_, .ok _, effects) =>
          match verdict? effects with
          | some remarks => .ok remarks.head?
          | none => .error late

/-- The settings to start a worker with. -/
def configOf (w : World) : Option String → Except String Config
  | some path => (Config.load w.read path).mapError Worker.Config.LoadFault.message
  | none =>
    match w.userConfig with
    | some path => .ok (Config.loadOrDefault w.read path)
    | none => .ok .default

def lintReport (w : World) (path : String) (text : List Char) (config : Option String)
    (inProcess : Bool) (timeout : Nat) : Report :=
  let program := if inProcess then fun _ => .ok Worker.linterProgram else w.program
  match (configOf w config).bind fun c => findFault program c text timeout with
  | .error complaint => .failed complaint
  | .ok none => .fine ""
  | .ok (some a) => .found s!"{path}:{a.row + 1}:{a.column + 1}: {a.text}\n"

/-! ### Commands -/

/-- Does something with the text of a file. -/
def withFile (w : World) (path : String) (f : List Char → Report) : Report :=
  match w.read path with
  | .error _ => .failed s!"failed to read {path}"
  | .ok text => f text.toList

def Command.report (w : World) : Command → Report
  | tokenize path maxTokens => withFile w path fun text => .fine (tokenList maxTokens text)
  | fold path row style rule =>
    withFile w path fun text => foldReport (TextDocument.ofText text).lines row style rule
  | lint path config inProcess timeout =>
    withFile w path fun text => lintReport w path text config inProcess timeout

/-- What the arguments lead to. -/
def report (w : World) (args : List String) : Report :=
  match Command.ofArguments? args with
  | some c => c.report w
  | none => .misused

/-- The files a command may read. -/
def Command.paths (userConfig : Option String) : Command → List String
  | tokenize path _ | fold path _ _ _ => [path]
  | lint path (some config) _ _ => [path, config]
  | lint path none _ _ => path :: userConfig.toList

end CodeEditing.CommandLine
