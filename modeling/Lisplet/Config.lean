import Lisplet.Json
import Lisplet.Machine
/-!
# Configuration

A configuration file is a JSON object with five optional fields; unknown ones are ignored, and a known
one of the wrong kind is an error. The file is looked for by two names, first beside the script and
then in the current directory; no file is an empty configuration. The files of a prelude are relative
to the configuration file.
-/
namespace Lisplet

/-- The settings a file can make. -/
structure Config where
  maxStructs : Option Float := none
  prelude : Option (List String) := none
  prompt : Option String := none
  tracing : Option Bool := none
  policy : Option Policy := none

/-- Why something outside the language stops. -/
inductive Halt where
  /-- A signal of the run. -/
  | signal (s : Signal)
  /-- A failure that is no error of the language. -/
  | failure (message : String)

namespace Config

/-- The names a configuration file can have. -/
def fileNames : List String := ["sprig.config.json", ".sprigrc.json"]

/-- A setting of the wrong kind. -/
def invalid (field file requirement : String) : String :=
  "Invalid \"" ++ field ++ "\" in " ++ file ++ ": must be " ++ requirement

/-- The number of struct types, a positive integer. -/
def maxStructsOf : Json → Option Float
  | .number x =>
    match Number.toInt? x with
    | some n => if 1 ≤ n then some x else none
    | none => none
  | _ => none

/-- A string. -/
def stringOf : Json → Option String
  | .string s => some s
  | _ => none

/-- A list of strings. -/
def stringsOf : Json → Option (List String)
  | .array items => items.mapM stringOf
  | _ => none

/-- A truth value. -/
def booleanOf : Json → Option Bool
  | .boolean b => some b
  | _ => none

/-- A policy by its name. -/
def policyOf : Json → Option Policy
  | .string s => Policy.all.find? (·.name == s)
  | _ => none

/-- A field of a kind; an absent one is no setting. -/
def setting {α : Type} (fields : List (String × Json)) (file name requirement : String)
    (read : Json → Option α) : Except String (Option α) :=
  match Json.field? fields name with
  | none => .ok none
  | some j =>
    match read j with
    | some a => .ok (some a)
    | none => .error (invalid name file requirement)

/-- The settings of a document, checked in a fixed order. -/
def validate (raw : Json) (file : String) : Except String Config :=
  match raw with
  | .object fields => do
    let maxStructs ← setting fields file "maxStructs" "a positive integer" maxStructsOf
    let prelude ← setting fields file "prelude" "an array of file paths" stringsOf
    let prompt ← setting fields file "prompt" "a string" stringOf
    let tracing ← setting fields file "trace" "a boolean" booleanOf
    let policy ← setting fields file "signaturePolicy"
      ("one of " ++ ", ".intercalate (Policy.all.map Policy.name)) policyOf
    return ⟨maxStructs, prelude, prompt, tracing, policy⟩
  | _ => .error ("Invalid config in " ++ file ++ ": must be an object")

/-- What is said of a text that is no JSON; where it goes wrong is not told. -/
def malformed (file : String) : String :=
  "Invalid JSON in config file " ++ file ++ ": <json error>"

/-- The settings of the text of a file, the prelude resolved against the file's directory. -/
def ofText (directory file text : String) : Except String Config :=
  match Json.parse? text with
  | none => .error (malformed file)
  | some raw => do
    let config ← validate raw file
    let base := Path.parent (Path.resolve directory file)
    return { config with prelude := config.prelude.map fun files => files.map (Path.resolve base) }

/-- Reads a configuration file. -/
def readFile (world : World) (file : String) : Except Halt Config :=
  match world.file file with
  | none => .error (.signal (.waiting (.file file)))
  | some (.error e) => .error (.failure (e.message file))
  | some (.ok text) =>
    match ofText world.directory file text with
    | .ok config => .ok config
    | .error message => .error (.failure message)

/-- The first of some paths that exists. -/
def firstExisting (world : World) : List String → Except Halt (Option String)
  | [] => .ok none
  | path :: rest =>
    match world.path path with
    | none => .error (.signal (.waiting (.path path)))
    | some true => .ok (some path)
    | some false => firstExisting world rest

/-- The paths a configuration file can have in a directory. -/
def candidates (directory : String) : List String := fileNames.map (Path.resolve directory)

/-- The configuration of the first existing file, empty without one. -/
def ofFirst (world : World) (paths : List String) : Except Halt Config := do
  match ← firstExisting world paths with
  | some file => readFile world file
  | none => return {}

/-- The configuration of a given file, or of the current directory when none is given. -/
def load (world : World) (explicit : Option String) : Except Halt Config :=
  match explicit with
  | some file =>
    if file = "" then ofFirst world (candidates world.directory) else readFile world file
  | none => ofFirst world (candidates world.directory)

/-- The configuration beside a script, or else of the current directory. -/
def loadForScript (world : World) (script : String) : Except Halt Config :=
  let directory := Path.parent (Path.resolve world.directory script)
  ofFirst world (candidates directory ++ candidates world.directory)

end Config

end Lisplet
