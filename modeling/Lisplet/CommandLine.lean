import Lisplet.Config
import Lisplet.Session
import Lisplet.Term.Dump
/-!
# The command line

A command prints its help, dumps the tokens or the terms of a file, or runs a session: libraries, then
a script, then lines typed by a user. A script runs as a whole before its errors are reported. Typed
lines are gathered until they make a complete text, which is then evaluated and its outcomes shown.

Everything printed is kept on a desk, in order, beside the session; what the desk shows after a command
is the command's whole effect.
-/
namespace Lisplet

/-- A line a command prints. -/
inductive Printed where
  | out (text : String)
  | err (text : String)
deriving DecidableEq, Repr

/-- What a command has printed, its session, and the typed text that is not complete yet. -/
structure Desk where
  printed : Array Printed
  prompts : String
  session : Session
  buffer : String

/-- Something a command does, which may be stopped. -/
abbrev Command := EStateM Halt Desk

namespace Command

variable {α : Type}

/-- The help text. -/
def usage : String :=
  "\nsprig - the Sprig language v" ++ version ++ "\n
Usage:
  sprig                        Start an interactive session
  sprig <file.sprig>           Run a Sprig script
  sprig --parse <file.sprig>   Parse and print terms as JSON
  sprig --lex <file.sprig>     Tokenize and print tokens
  sprig --help                 Show this help message

Options:
  --trace                      Enable execution tracing
  -i, --interactive            Start a session after running the file
  --lib <file>                 Load a file before the script (repeatable)
  --config <path>              Path to sprig.config.json (auto-detected by default)

Examples:
  sprig examples/fib.sprig
  sprig --lib prelude.sprig -i examples/structs.sprig
  sprig --trace examples/macros.sprig
"

/-! ## Arguments -/

/-- Whether an argument is a flag. -/
def isFlag (arg : String) : Bool := arg.toList.head? == some '-'

/-- The flags that take the next argument as their value. -/
def takesValue (arg : String) : Bool := arg == "--lib" || arg == "--config"

/-- The arguments that are files: no flags, and no values of flags. -/
def files : List String → List String
  | [] => []
  | arg :: rest =>
    if takesValue arg then
      match rest with
      | [] => []
      | _ :: rest' => files rest'
    else if isFlag arg then files rest
    else arg :: files rest

/-- The value behind the first occurrence of a flag. -/
def valueOf? (flag : String) : List String → Option String
  | [] => none
  | arg :: rest => if arg == flag then rest.head? else valueOf? flag rest

/-- The values behind all occurrences of a flag. -/
def valuesOf (flag : String) : List String → List String
  | [] => []
  | arg :: rest =>
    if arg == flag then rest.head?.toList ++ valuesOf flag rest else valuesOf flag rest

/-! ## Printing and asking -/

/-- Prints a line. -/
def out (text : String) : Command Unit :=
  modify fun d => { d with printed := d.printed.push (.out text) }

/-- Prints a line of errors. -/
def err (text : String) : Command Unit :=
  modify fun d => { d with printed := d.printed.push (.err text) }

/-- Shows a prompt. -/
def showPrompt (text : String) : Command Unit :=
  modify fun d => { d with prompts := d.prompts ++ text }

/-- Goes on with a result or is stopped. -/
def ofExcept : Except Halt α → Command α
  | .ok a => pure a
  | .error h => throw h

/-- Does something in the session. -/
def inSession (act : Session.Act α) : Command α := fun d =>
  match act d.session with
  | .ok a session => .ok a { d with session := session }
  | .error e session => .error (.signal e) { d with session := session }

/-- Whether a path exists. -/
def pathExists (world : World) (path : String) : Command Bool :=
  match world.path path with
  | some b => pure b
  | none => throw (.signal (.waiting (.path path)))

/-- The text of a file. -/
def fileText (world : World) (path : String) : Command String :=
  match world.file path with
  | some (.ok text) => pure text
  | some (.error e) => throw (.failure (e.message path))
  | none => throw (.signal (.waiting (.file path)))

/-- Reports what stopped a command and gives its status. A question stays open. -/
def report : Halt → Command Float
  | .signal (.exit status) => pure status
  | .signal (.fault f) => do
    err f.text
    return 1
  | .failure message => do
    err ("fatal: " ++ message)
    return 1
  | h => throw h

/-- Does something; if it is stopped, that is reported and only a status is left. -/
def guarded (act : Command α) : Command (Except Float α) := fun d =>
  match act d with
  | .ok a d' => .ok (.ok a) d'
  | .error h d' => (do return Except.error (← report h) : Command (Except Float α)) d'

/-! ## Dumping tokens and terms -/

/-- A token as it is listed. -/
def tokenLine (t : Token) : String :=
  toString t.position.line ++ ":" ++ toString t.position.column ++ "\t" ++ t.kind.name ++
    (if t.text = "" then "" else " " ++ Text.quoted t.text)

/-- Lists the tokens of a text, all or none. -/
def dumpTokens (source : String) : Command Float := do
  match (Lexer.lex source).complete with
  | .error e => report (.signal (.fault (.ofSyntax e)))
  | .ok tokens =>
    tokens.forM fun t => out (tokenLine t)
    return 0

/-- Prints the terms of a text, all or none. -/
def dumpTerms (source : String) : Command Float := do
  match (Reader.readSource source : Except SyntaxError (List Code)) with
  | .error e => report (.signal (.fault (.ofSyntax e)))
  | .ok terms =>
    out (Json.array (Term.toJsons terms)).text
    return 0

/-! ## Running -/

/-- Where a command stands: it is finished with a status, or goes on with typed lines. -/
inductive Stage where
  | finished (status : Float)
  | interactive (status : Float)

/-- Whether a command goes on with typed lines. -/
def Stage.isInteractive : Stage → Bool
  | finished _ => false
  | interactive _ => true

/-- Sets up the session of a command. -/
def openSession (world : World) (base : Options) (args : List String) (script : Option String) :
    Command Unit := do
  let config ← ofExcept <|
    match valueOf? "--config" args, script with
    | some file, _ =>
      if file ≠ "" then Config.load world (some file)
      else match script with
        | some path => Config.loadForScript world path
        | none => Config.load world none
    | none, some path => Config.loadForScript world path
    | none, none => Config.load world none
  let options : Options :=
    { base with
      tracing := args.contains "--trace" || config.tracing.getD false
      policy := config.policy.getD .nominal
      capacity := (config.maxStructs.bind Number.toInt?).getD Registry.defaultCapacity
      directory := some ((script.map Path.parent).getD world.directory) }
  modify fun d => { d with session := Session.new world options config.prompt }
  let libraries :=
    config.prelude.getD [] ++ (valuesOf "--lib" args).map (Path.resolve world.directory)
  libraries.forM fun library => inSession (Session.loadFile library)

/-- Prints the faults among outcomes; the status says whether there were any. -/
def reportOutcomes : List Outcome → Command Float
  | [] => pure 0
  | .value _ :: rest => reportOutcomes rest
  | .failed f :: rest => do
    err f.text
    let _ ← reportOutcomes rest
    return 1

/-- Runs a script as a whole, then reports its faults. -/
def runScript (world : World) (script : String) : Command Float := do
  let text ← fileText world script
  reportOutcomes (← inSession (Session.evaluate text))

/-- Opens the session and runs the script, if there is one. -/
def runSession (world : World) (base : Options) (args : List String) (script : Option String) :
    Command Stage := do
  match ← guarded (openSession world base args script) with
  | .error status => return .finished status
  | .ok () =>
    match script with
    | none => return .interactive 0
    | some path =>
      match ← guarded (runScript world path) with
      | .error status => return .finished status
      | .ok status =>
        if args.contains "-i" || args.contains "--interactive" then return .interactive status
        else return .finished status

/-- Dumps the script, which has to be there. -/
def inspect (world : World) (args : List String) (script : Option String) : Command Float := do
  match script with
  | none =>
    err "Error: No input file specified."
    out usage
    return 1
  | some path =>
    let text ← fileText world path
    if args.contains "--lex" then dumpTokens text else dumpTerms text

/-- Carries out a command up to the point where lines are typed, the first prompt included. -/
def start (world : World) (base : Options) (args : List String) : Command Stage := do
  if args.contains "--help" || args.contains "-h" then
    out usage
    return .finished 0
  else
    let script := (files args).head?.map (Path.resolve world.directory)
    let missing ← match script with
      | some path => do pure (!(← pathExists world path))
      | none => pure false
    if missing then
      err ("Error: File not found: " ++ script.getD "")
      return .finished 1
    else if args.contains "--lex" || args.contains "--parse" then
      return .finished (← inspect world args script)
    else
      let stage ← runSession world base args script
      if stage.isInteractive then showPrompt (← get).session.prompt
      return stage

/-! ## Typed lines -/

/-- The prompt inside an incomplete text. -/
def continuationPrompt : String := "... "

/-- A line more on the text typed so far. -/
def append (buffer line : String) : String :=
  if buffer = "" then line else buffer ++ "\n" ++ line

/-- Shows the outcomes of a text. -/
def showOutcome (o : Outcome) : Command Unit :=
  match o.text? with
  | none => pure ()
  | some text =>
    match o with
    | .value _ => out text
    | .failed _ => err text

/-- Takes a typed line: the text is kept while it is incomplete, and evaluated once it is not. A status
ends the session. -/
def feed (line : String) : Command (Option Float) := do
  let text := append (← get).buffer line
  if Session.isIncomplete text then
    modify fun d => { d with buffer := text }
    showPrompt continuationPrompt
    return none
  else
    modify fun d => { d with buffer := "" }
    match ← guarded (inSession (Session.evaluate text)) with
    | .error status => return some status
    | .ok outcomes =>
      outcomes.forM showOutcome
      showPrompt (← get).session.prompt
      return none

/-- Takes typed lines until one ends the session. -/
def feedAll : List String → Command (Option Float)
  | [] => pure none
  | line :: lines => do
    match ← feed line with
    | some status => return some status
    | none => feedAll lines

/-- Splits typed text into lines: a line ends at a line feed, a carriage return, both in this order, or
a Unicode line or paragraph separator; what follows the last end is a line if it is not empty. -/
def splitLines (current : List Char) : List Char → List String
  | [] => if current.isEmpty then [] else [String.ofList current.reverse]
  | '\r' :: '\n' :: rest => String.ofList current.reverse :: splitLines [] rest
  | c :: rest =>
    if c = '\n' ∨ c = '\r' ∨ c.toNat = 0x2028 ∨ c.toNat = 0x2029 then
      String.ofList current.reverse :: splitLines [] rest
    else splitLines (c :: current) rest

/-- A whole command with the lines typed to it; the result is its status. -/
def run (world : World) (base : Options) (args lines : List String) : Command Float := do
  match ← start world base args with
  | .finished status => return status
  | .interactive status => return (← feedAll lines).getD status

/-- Takes the next typed line from the input of the session. -/
def takeLine (d : Desk) : LineAnswer × Desk :=
  let (answer, input) := d.session.store.input.readLine
  (answer, { d with session.store.input := input })

/-- A desk with another world, and with reads that have come to its input. -/
def renew (d : Desk) (world : World) (reads : List Read) : Desk :=
  { d with
    session.store.world := world
    session.store.input := d.session.store.input.supply reads }

/-- The desk before a command. -/
def desk (world : World) (base : Options) : Desk where
  printed := #[]
  prompts := ""
  session := Session.new world base none
  buffer := ""

end Command

end Lisplet
