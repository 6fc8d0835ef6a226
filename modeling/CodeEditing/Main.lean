import CodeEditing.CommandLine.Report
import CodeEditing.Files.Program

/-! The command line. Under the name of the worker program it serves a host over its standard streams;
otherwise it does what its arguments ask for. -/
namespace CodeEditing.CommandLine

/-- The text of a file, or why it cannot be had. -/
def readText (path : String) : IO (Except Files.Fault String) := do
  try
    match String.fromUTF8? (← IO.FS.readBinFile path) with
    | some text => return .ok text
    | none => return .error .notText
  catch
    | .noFileOrDirectory .. => return .error .notFound
    | .inappropriateType .. => return .error .isFolder
    | .invalidArgument .. => return .error .tooLong
    | _ => return .error .notFolder

/-- Where the settings of the user are kept. -/
def userConfig : IO (Option String) := do
  match ← IO.getEnv "XDG_CONFIG_HOME" with
  | some dir => return some (dir ++ "/" ++ Worker.Config.userPath)
  | none =>
    match ← IO.getEnv "HOME" with
    | some home => return some (home ++ "/.config/" ++ Worker.Config.userPath)
    | none => return none

/-- The only program there is to start is the worker that comes with the command. -/
def program (c : Worker.Config) : Except String Worker.Program :=
  let installed (name : String) (_ : List String) : Option Worker.Program :=
    if name = Worker.Config.default.program then some Worker.linterProgram else none
  ((Files.Tree.ofFiles [] []).start installed c.program c.args).mapError Files.StartFault.message

/-- Serves a host until it closes the input. -/
def serveHost : IO UInt32 := do
  let input ← (← IO.getStdin).readBinToEnd
  let (written, ending) := Worker.serve Worker.linter none input.toList
  let output ← IO.getStdout
  output.write ⟨written.toArray⟩
  output.flush
  return match ending with
    | .done => 0
    | .input _ | .output => 1

/-- Does what the arguments ask for. -/
def runCommand (args : List String) : IO UInt32 := do
  let userConfig ← userConfig
  match Command.ofArguments? args with
  | none =>
    IO.eprintln "usage: modekit tokenize|fold|lint [OPTIONS] FILE"
    return 2
  | some command =>
    let texts ← (command.paths userConfig).mapM fun path => return (path, ← readText path)
    let read (path : String) := (texts.lookup path).getD (.error .notFound)
    let report := command.report ⟨read, userConfig, program⟩
    IO.print report.output
    match report.complaint with
    | some complaint => IO.eprintln s!"Error: {complaint}"
    | none => pure ()
    return report.status.toUInt32

end CodeEditing.CommandLine

open CodeEditing.CommandLine in
def main (args : List String) : IO UInt32 := do
  if (← IO.appPath).fileName == some CodeEditing.Worker.Config.default.program then serveHost
  else runCommand args
