import CodeEditing.Files.Tree
import CodeEditing.Json.Printer
import CodeEditing.Json.Shape

/-! Which worker is started and what it loads.

Settings are kept in a JSON file. Whatever it leaves out has a default; `Config.load` says why a file
cannot be used, and `Config.loadOrDefault` then takes the defaults. -/
namespace CodeEditing.Worker

open Json (Decoder Problem Record Value)

/-- The program to start and its arguments, the module and class it is asked to load, and where
modules are found. -/
structure Config where
  program : String
  args : List String
  module : String
  classname : String
  tlns : List (String × String)
  deriving Repr, DecidableEq

namespace Config

def default : Config := ⟨"modekit-worker", [], "coffee", "BracketLinter", []⟩

/-! ### JSON form -/

/-- Text under free keys, in the order of the keys. -/
def textByKey : Decoder (List (String × String)) := fun origin n =>
  (Decoder.dictionary .aString origin n).map Json.inKeyOrder

def textByKeyToJson (pairs : List (String × String)) : Value :=
  .object (pairs.map fun (k, s) => (k, .string s))

def record : Record Config :=
  ⟨"struct WorkerConfig", default,
    [.optional "program" (.string "path string") fun s c => {c with program := s},
      .optional "args" (.list .aString) fun ss c => {c with args := ss},
      .optional "module" .aString fun s c => {c with module := s},
      .optional "classname" .aString fun s c => {c with classname := s},
      .optional "tlns" textByKey fun ps c => {c with tlns := ps}]⟩

def toJson (c : Config) : Value :=
  .object [("program", .string c.program), ("args", .ofStrings c.args),
    ("module", .string c.module), ("classname", .string c.classname),
    ("tlns", textByKeyToJson c.tlns)]

/-! ### Files -/

inductive LoadFault where
  | unreadable (path : String) (fault : Files.Fault)
  | unparseable (path text : String) (problem : Problem)

def LoadFault.message : LoadFault → String
  | unreadable path fault => s!"failed to read {path}: {fault.message}"
  | unparseable path text problem =>
    s!"failed to parse {path}: {problem.message text.toUTF8.toList}"

/-- The settings in the file at a path, where `read` gives the text of a file. -/
def load (read : String → Except Files.Fault String) (path : String) : Except LoadFault Config :=
  match read path with
  | .error fault => .error (.unreadable path fault)
  | .ok text =>
    match Json.decodeText record.decode text.toUTF8.toList with
    | .error problem => .error (.unparseable path text problem)
    | .ok c => .ok c

/-- The settings in the file at a path, or the defaults. -/
def loadOrDefault (read : String → Except Files.Fault String) (path : String) : Config :=
  match load read path with
  | .ok c => c
  | .error _ => default

/-- Where the settings of a user are kept, inside the folder for settings. -/
def userPath : String := "modekit/worker.json"

/-- Writes the settings to a file, making the folders it lies in. -/
def save (c : Config) (files : Files.Tree) (path : String) : Except Files.Fault Files.Tree :=
  files.write path c.toJson.indentedText

end Config

end CodeEditing.Worker
