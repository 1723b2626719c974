import Lisplet.Evaluation
/-!
# A fresh interpreter

A run starts with the built-in procedures and two constants in the global scope, an empty registry and
nothing written. The options say where lines come from, how sinks behave, how many struct types there
may be and where relative paths start.
-/
namespace Lisplet

/-- The version of the language. -/
def version : String := "0.1.0"

/-- What is bound in the global scope from the start. -/
def initialBindings : Bindings Value :=
  Builtin.table.map (fun b => (b.name, .builtin b)) ++
    [("pi", .number .given 3.141592653589793), ("version", .string .given version)]

/-- How an interpreter is set up. -/
structure Options where
  tracing : Bool := false
  policy : Policy := .nominal
  capacity : Int := Registry.defaultCapacity
  /-- The directory that relative paths start from, the current one by default. -/
  directory : Option String := none
  input : Input := .lines []
  output : Sink := {}
  errorOutput : Sink := {}

/-- The state before anything has run. -/
def Store.initial (world : World) (options : Options) : Store where
  frames := ⟨#[initialBindings]⟩
  registry := .empty options.capacity
  policy := options.policy
  caller := .global
  directory := options.directory.getD world.directory
  importing := []
  nextStamp := 0
  tracing := options.tracing
  log := #[]
  output := options.output
  errorOutput := options.errorOutput
  input := options.input
  timesAsked := 0
  chancesAsked := 0
  world := world

namespace Interpreter

/-- Reads a text and evaluates its forms in the global scope. -/
def evaluateSource (source : String) : Eval Value :=
  evaluator.evaluateSource .global source

/-- Applies a procedure to values. -/
def apply (f : Value) (args : List Value) : Eval Value := evaluator.apply f args

/-- Evaluates a file in the global scope. -/
def importFile (file : String) : Eval Unit := evaluator.importFile file

end Interpreter

end Lisplet
