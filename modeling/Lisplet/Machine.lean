import Lisplet.Fault
import Lisplet.Input
import Lisplet.World
/-!
# The state of a run

Everything a run can change stands in one store: the frames, the struct registry, the dynamic context
(the scope of the current call, the current directory, the imports in progress), the log of what was
written and traced, and how far the input has been read. A run either gives a value or stops with a signal; the
store survives both. Only faults can be caught.
-/
namespace Lisplet

/-- How a value is held against the name of a type: by its own type's name only, or for structs also
by the fields. -/
inductive Policy where
  | nominal
  | structural
deriving DecidableEq, Repr, Inhabited

/-- The name of a policy. -/
def Policy.name : Policy → String
  | nominal => "nominal"
  | structural => "structural"

/-- The policies there are. -/
def Policy.all : List Policy := [nominal, structural]

/-- How writing to a sink or flushing it fails, if it does. -/
structure Sink where
  writeFailure : Option String := none
  flushFailure : Option String := none
deriving DecidableEq, Repr, Inhabited

/-- Something a run hands out: text for one of the two sinks, or a line of the trace. -/
inductive Emission where
  | output (text : String)
  | errorOutput (text : String)
  | trace (line : String)
deriving DecidableEq, Repr, Inhabited

namespace Emission

/-- The text, if it is for the output. -/
def output? : Emission → Option String
  | output text => some text
  | _ => none

/-- The text, if it is for the error output. -/
def errorOutput? : Emission → Option String
  | errorOutput text => some text
  | _ => none

/-- The line, if it belongs to the trace. -/
def trace? : Emission → Option String
  | trace line => some line
  | _ => none

end Emission

/-- The state of a run. -/
structure Store where
  frames : Frames Value
  registry : Registry
  policy : Policy
  /-- The scope of the call a built-in procedure runs in. -/
  caller : Scope
  /-- The directory that relative paths start from. -/
  directory : String
  /-- The files being imported, innermost first. -/
  importing : List String
  nextStamp : Stamp
  tracing : Bool
  /-- What was handed out so far, in order. -/
  log : Array Emission
  output : Sink
  errorOutput : Sink
  input : Input
  timesAsked : Nat
  chancesAsked : Nat
  world : World

namespace Store

/-- The text written to the output. -/
def outputText (s : Store) : String := String.join (s.log.toList.filterMap Emission.output?)

/-- The text written to the error output. -/
def errorText (s : Store) : String := String.join (s.log.toList.filterMap Emission.errorOutput?)

/-- The lines of the trace. -/
def traceLines (s : Store) : List String := s.log.toList.filterMap Emission.trace?

end Store

/-- What stops a run. -/
inductive Signal where
  /-- An error of the language. -/
  | fault (f : Fault)
  /-- The program ends itself with a status. -/
  | exit (status : Float)
  /-- The world has not answered yet. -/
  | waiting (q : Question)
  /-- The run was allowed too few steps. -/
  | outOfFuel

/-- A run that may change the store and may stop. -/
abbrev Eval := EStateM Signal Store

namespace Eval

variable {α : Type}

/-- Stops with a fault. -/
def fault (f : Fault) : Eval α := throw (.fault f)

/-- Goes on with a result or stops with its fault. -/
def ofExcept : Except Fault α → Eval α
  | .ok a => pure a
  | .error f => fault f

/-- Goes on with an answer of the world or stops with the question. -/
def answer (q : Question) : Option α → Eval α
  | some a => pure a
  | none => throw (.waiting q)

/-- A stamp never given before. -/
def freshStamp : Eval Stamp :=
  modifyGet fun s => (s.nextStamp, { s with nextStamp := s.nextStamp + 1 })

/-! ## Scopes -/

/-- The value of a name in a scope, if it has one. -/
def lookup? (scope : Scope) (name : String) : Eval (Option Value) := do
  return (← get).frames.lookup? scope name

/-- The value of a name in a scope, or a fault at the place of the name. -/
def lookup (scope : Scope) (name : String) (pos : Position) : Eval Value := do
  let s ← get
  match s.frames.lookup? scope name with
  | some v => pure v
  | none => fault (.unbound s.registry name pos)

/-- Binds a name in a scope's own frame; a reserved name is refused. The frames are changed in place
(`define_eq_onFrames`). -/
def define (scope : Scope) (name : String) (v : Value) : Eval Unit :=
  if isReserved name then fault (.ofScope (.reserved name))
  else modify fun s => { s with frames := s.frames.bind scope name v }

/-- The frame in which a name is bound, seen from a scope. -/
def owner? (scope : Scope) (name : String) : Eval (Option Nat) := do
  return (← get).frames.owner? scope name

/-- Changes the nearest binding of a name. The frames are changed in place (`assign_eq_onFrames`). -/
def assign (scope : Scope) (name : String) (v : Value) : Eval Unit := do
  match ← owner? scope name with
  | some frame => modify fun s => { s with frames := s.frames.put frame name v }
  | none => fault (.ofScope (.undefined name))

/-- Changes the frames, or stops with the refusal of a scope. -/
def onFrames (change : Frames Value → Except ScopeError (Frames Value)) : Eval Unit := fun s =>
  match change s.frames with
  | .ok frames => .ok () { s with frames := frames }
  | .error e => .error (.fault (.ofScope e)) s

/-- Binding a name in a run is binding it in the frames. -/
theorem define_eq_onFrames (scope : Scope) (name : String) (v : Value) :
    define scope name v = onFrames fun f => f.define scope name v := by
  funext s
  unfold define onFrames Frames.define
  split <;> rfl

/-- Changing a name in a run is changing it in the frames. -/
theorem assign_eq_onFrames (scope : Scope) (name : String) (v : Value) :
    assign scope name v = onFrames fun f => f.assign scope name v := by
  have howner (s : Store) : owner? scope name s = .ok (s.frames.owner? scope name) s := rfl
  funext s
  unfold assign onFrames Frames.assign
  simp only [bind, EStateM.bind, howner]
  cases s.frames.owner? scope name <;> rfl

/-- Opens a scope inside another one. -/
def childScope (scope : Scope) : Eval Scope := modifyGet fun s =>
  (s.frames.inside scope, { s with frames := s.frames.grow })

/-! ## Dynamic context -/

/-- Runs with another calling scope and restores the old one, however the run ends. -/
def withCaller (scope : Scope) (act : Eval α) : Eval α := fun s =>
  let saved := s.caller
  match act { s with caller := scope } with
  | .ok a s' => .ok a { s' with caller := saved }
  | .error e s' => .error e { s' with caller := saved }

/-- Runs as the import of a file. However the run ends, the directory is restored and the file is taken off the imports
in progress. -/
def withImport (path : String) (act : Eval α) : Eval α := fun s =>
  let directory := s.directory
  match act { s with directory := Path.parent path, importing := path :: s.importing } with
  | .ok a s' => .ok a { s' with directory := directory, importing := s'.importing.erase path }
  | .error e s' => .error e { s' with directory := directory, importing := s'.importing.erase path }

/-- Adds a line to the trace, when tracing. A line is the message alone: the milliseconds since the start of the run that
are printed in front of it, and the look at the clock they take, are no part of a run here. -/
def trace (message : Unit → String) : Eval Unit :=
  modify fun s => if s.tracing then { s with log := s.log.push (.trace (message ())) } else s

/-! ## Input and output -/

/-- The fault of a sink that refuses. -/
def flushFault (message : String) : Fault where
  code := .flushFailed
  detail := some message

/-- Writes to a sink and flushes it. What a sink refuses to flush was written all the same. -/
def emit (sink : Sink) (e : Emission) : Eval Unit := do
  match sink.writeFailure with
  | some message => fault (flushFault message)
  | none =>
    modify fun s => { s with log := s.log.push e }
    match sink.flushFailure with
    | some message => fault (flushFault message)
    | none => pure ()

/-- Writes to the output. -/
def write (text : String) : Eval Unit := do emit (← get).output (.output text)

/-- Writes to the error output. -/
def writeError (text : String) : Eval Unit := do emit (← get).errorOutput (.errorOutput text)

/-- Reads a line of the input; none at its end. -/
def readLine : Eval (Option String) := fun s =>
  let (got, input) := s.input.readLine
  match got with
  | .line text => .ok (some text) { s with input := input }
  | .ended => .ok none { s with input := input }
  | .failed message =>
    .error (.fault { code := .readInputFailed, detail := some message }) { s with input := input }
  | .awaiting => .error (.waiting .line) s

/-- Reads a file by its absolute path. -/
def readFile (path : String) : Eval String := do
  let s ← get
  match ← answer (.file path) (s.world.file path) with
  | .ok text => pure text
  | .error e =>
    fault { code := .readFileFailed, detail := some (path ++ ": " ++ e.message path) }

/-- Imports a file, unless it is being imported already: its path and its text are handed on to be evaluated. Paths inside
the file start from its own directory. -/
def importWith (run : String → String → Eval Value) (file : String) : Eval Unit := do
  let s ← get
  let path := Path.resolve s.directory file
  if s.importing.contains path then
    Eval.trace fun _ => "Import skipped (already in progress): " ++ path
  else
    let text ← Eval.readFile path
    Eval.trace fun _ => "Import: " ++ path
    let _ ← Eval.withImport path (run path text)

/-- The time in seconds. -/
def currentTime : Eval Float := do
  let s ← get
  let t ← answer (.time s.timesAsked) (s.world.time s.timesAsked)
  set { s with timesAsked := s.timesAsked + 1 }
  return t

/-- A number between zero and one. -/
def chance : Eval Float := do
  let s ← get
  set { s with chancesAsked := s.chancesAsked + 1 }
  return s.world.chance s.chancesAsked

end Eval

end Lisplet
