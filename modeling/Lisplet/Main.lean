import Lisplet.CommandLine
import Std.Time.DateTime.Timestamp
/-!
# The program

A command is computed by pure functions that stop at a question about the world. The program puts the
question to the system, keeps the answer and starts the computation again; the same answers give the
same run, so what was shown before a question is not shown a second time.
-/
namespace Lisplet.Main

/-- The answers of the system so far. -/
structure Known where
  directory : String
  seed : UInt64
  files : List (String × Except FileFailure String) := []
  paths : List (String × Bool) := []
  vars : List (String × Option String) := []
  times : Array Float := #[]
  /-- The reads of the input since the last line that was typed. -/
  reads : List Read := []

/-- The world as far as it is known. -/
def Known.world (k : Known) : World where
  directory := k.directory
  file := fun path => k.files.lookup path
  path := fun path => k.paths.lookup path
  environment := fun name => k.vars.lookup name
  time := fun index => k.times[index]?
  chance := World.dice k.seed

/-- The options of a command: lines come from the reads of the input. -/
def Known.options (k : Known) : Options := { input := .bytes (.ofReads k.reads true) }

/-! ## Asking the system -/

/-- The system's code for reading a directory. -/
def directoryCode : UInt32 := 21

/-- Why the system could not read a file. -/
def failureOf : IO.Error → FileFailure
  | .noFileOrDirectory _ _ _ => .missing
  | .inappropriateType _ code _ => if code = directoryCode then .isADirectory else .notADirectory
  | e => .other (toString e)

/-- Reads a file. -/
def readFile (path : String) : IO (Except FileFailure String) := do
  match ← (IO.FS.readBinFile path).toBaseIO with
  | .ok bytes => return .ok (String.ofList (Text.decode bytes.toList))
  | .error e => return .error (failureOf e)

/-- Whether a path exists. -/
def pathExists (path : String) : IO Bool := do
  match ← (IO.FS.realPath path).toBaseIO with
  | .ok _ => return true
  | .error _ => return false

/-- The time in seconds. -/
def currentTime : IO Float := do
  let now ← Std.Time.Timestamp.now
  return Float.ofInt now.toMillisecondsSinceUnixEpoch.val / 1000

/-- How many bytes are read at once. -/
def chunkSize : USize := 4096

/-- Reads from the input. -/
def readInput : IO Read := do
  match ← ((← IO.getStdin).read chunkSize).toBaseIO with
  | .ok bytes => return .chunk bytes.toList
  | .error e => return .failed (toString e)

/-- Puts a question to the system and keeps the answer. -/
def Known.ask (k : Known) : Question → IO Known
  | .file path => do return { k with files := (path, ← readFile path) :: k.files }
  | .path path => do return { k with paths := (path, ← pathExists path) :: k.paths }
  | .environment name => do
    let value := World.answerTo name (← IO.getEnv name)
    return { k with vars := (name, value) :: k.vars }
  | .time _ => do return { k with times := k.times.push (← currentTime) }
  | .line => do return { k with reads := k.reads ++ [← readInput] }

/-! ## Showing what a command hands out -/

/-- How much of a desk has been shown. -/
structure Shown where
  emissions : Nat := 0
  printed : Nat := 0
  prompts : Nat := 0

/-- Writes text at once. -/
def put (stream : IO.FS.Stream) (text : String) : IO Unit := do
  stream.putStr text
  stream.flush

/-- Shows something that a run handed out. -/
def showEmission : Emission → IO Unit
  | .output text => do put (← IO.getStdout) text
  | .errorOutput text => do put (← IO.getStderr) text
  | .trace line => do put (← IO.getStdout) ("  [trace] " ++ line ++ "\n")

/-- Shows a line that a command prints. -/
def showPrinted : Printed → IO Unit
  | .out text => do put (← IO.getStdout) (text ++ "\n")
  | .err text => do put (← IO.getStderr) (text ++ "\n")

/-- Shows what has come to a desk and has not been shown yet. -/
def Shown.catchUp (s : Shown) (d : Desk) : IO Shown := do
  let log := d.session.store.log
  (log.toList.drop s.emissions).forM showEmission
  (d.printed.toList.drop s.printed).forM showPrinted
  let prompts := d.prompts.toList
  put (← IO.getStdout) (String.ofList (prompts.drop s.prompts))
  return ⟨log.size, d.printed.size, prompts.length⟩

/-! ## Running -/

/-- Tries something until no question is left. -/
partial def settle {α : Type} (attempt : Known → EStateM.Result Halt Desk α) (s : Shown) (k : Known) :
    IO (EStateM.Result Halt Desk α × Shown × Known) := do
  match attempt k with
  | .error (.signal (.waiting q)) d =>
    let s ← s.catchUp d
    settle attempt s (← k.ask q)
  | .ok a d => return (.ok a d, ← s.catchUp d, k)
  | .error h d => return (.error h d, ← s.catchUp d, k)

/-- Says what stopped a command for good and gives its status. -/
def giveUp (h : Halt) (d : Desk) (s : Shown) : IO Float := do
  match Command.report h d with
  | .ok status d' =>
    let _ ← s.catchUp d'
    return status
  | .error _ _ => return 1

/-- Takes typed lines until the input or the session ends. -/
partial def converse (status : Float) (d : Desk) (s : Shown) (k : Known) : IO Float := do
  match Command.takeLine d with
  | (.line line, d) =>
    let (result, s, k) ← settle (fun k => Command.feed line (Command.renew d k.world k.reads)) s k
    match result with
    | .ok (some status) _ => return status
    | .ok none d => converse status d s { k with reads := [] }
    | .error h d => giveUp h d s
  | (.awaiting, _) => converse status (Command.renew d k.world [← readInput]) s k
  | _ => return status

/-- Carries out a command. -/
def carryOut (args : List String) (k : Known) : IO Float := do
  let attempt (k : Known) : EStateM.Result Halt Desk Command.Stage :=
    Command.start k.world k.options args (Command.desk k.world k.options)
  let (result, s, k) ← settle attempt {} k
  match result with
  | .ok (.finished status) _ => return status
  | .ok (.interactive status) d => converse status d s { k with reads := [] }
  | .error h d => giveUp h d s

/-- The status the system is given: one byte, and one for what is no integer. -/
def exitCode (status : Float) : UInt32 :=
  match Number.toInt? status with
  | some n => UInt32.ofNat (n % 256).toNat
  | none => 1

end Lisplet.Main

/-- Runs the command given by the arguments. -/
def main (args : List String) : IO UInt32 := do
  let directory := toString (← IO.currentDir)
  let seed := (← IO.getRandomBytes 8).toList.foldl (fun n b => n * 256 + b.toUInt64) 0
  let status ← Lisplet.Main.carryOut args { directory := directory, seed := seed }
  return Lisplet.Main.exitCode status
