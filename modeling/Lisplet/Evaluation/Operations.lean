import Lisplet.Builtin.Arithmetic
import Lisplet.Builtin.Records
import Lisplet.Builtin.Values
import Lisplet.Evaluation.Expansion
/-!
# Calling built-in procedures

Procedures that only compute are handed a fresh stamp and their arguments. Those that talk to the
world or steer the run act on the store: they evaluate data as code in the global scope, expand a macro
as the calling scope knows it, or apply a procedure again and again.
-/
namespace Lisplet

/-- Calls a procedure that talks to the world outside. -/
def HostOperation.run (op : HostOperation) (args : List Value) : Eval Value :=
  match op, args with
  | .display, args => do
    Eval.write (Value.displayAll args)
    return .nil
  | .displayDebug, args => do
    Eval.write (" ".intercalate (args.map Value.repr))
    return .nil
  | .newline, _ => do
    Eval.write "\n"
    return .nil
  | .printError, [.error stamp code description payload] => do
    Eval.writeError ((Value.error stamp code description payload).repr ++ "\n")
    return .nil
  | .printError, [v] => Eval.fault (.signature "error" v.typeName)
  | .readLine, _ => do
    match ← Eval.readLine with
    | some line => return .string .made line
    | none => return .nil
  | .readFile, [v] => do
    let file ← Eval.ofExcept v.asString
    let text ← Eval.readFile (Path.resolve (← get).directory file)
    return .string .made text
  | .environment, [v] => do
    let name ← Eval.ofExcept v.asString
    match ← Eval.answer (.environment name) ((← get).world.environment name) with
    | some text => return .string .made text
    | none => return .nil
  | .currentTime, _ => do return .number .made (← Eval.currentTime)
  | .random, _ => do return .number .made (← Eval.chance)
  | _, args => Eval.ofExcept (Builtin.wrongCount args)

/-- Whether a value satisfies the type of a given name under the policy of the run. -/
def Store.conforms (s : Store) (v : Value) (name : String) : Bool :=
  v.typeName == name ||
    match s.policy, v with
    | .structural, .struct _ type _ =>
      match s.registry.find? name with
      | some target => target.fields == type.fields
      | none => false
    | _, _ => false

namespace Control

/-- The text of the pieces of a format string, expressions evaluated in the global scope. -/
def formatPieces (r : Recursion) : List Format.Piece → Eval (List String)
  | [] => pure []
  | .text _ value :: ps => do return String.ofList value :: (← formatPieces r ps)
  | .code source :: ps => do
    let t ← Eval.ofExcept (Fault.readForm (String.ofList source))
    let v ← r.evaluate t .global
    return v.display :: (← formatPieces r ps)

/-- Formats a string that holds its expressions as text. -/
def formatText (r : Recursion) (template : String) : Eval Value :=
  match Format.scan false template.toList with
  | .error cause => Eval.fault (.ofCause cause)
  | .ok scan => do return .string .made (String.join (← formatPieces r scan.pieces))

/-- Expands a macro call given as data. -/
def expandData (r : Recursion) (data : Value) : Eval Value :=
  match data with
  | .list (.symbol name :: operands) => do
    let s ← get
    match s.frames.lookup s.caller name with
    | .error e => Eval.fault (.ofScope e)
    | .ok (.expander _ own t) =>
      return (← Expansion.expand r own t (Value.toTerms .nowhere operands)).toValue
    | .ok v => Eval.fault (.signature "macro" v.typeName)
  | v => Eval.fault (.signature "macro call" v.typeName)

/-- Does something a number of times. -/
def times : Nat → Eval Value → Eval Unit
  | 0, _ => pure ()
  | n + 1, act => do
    let _ ← act
    times n act

/-- Applies a procedure without arguments a number of times. -/
def repeatCall (r : Recursion) (count procedure : Value) : Eval Value := do
  let x ← Eval.ofExcept count.asNumber
  match Number.toInt? x with
  | some (.ofNat n) =>
    if procedure.isProcedure then
      times n (r.apply procedure [])
      return .nil
    else Eval.fault (.signature "procedure" procedure.typeName)
  | _ => Eval.fault (.signature "non-negative integer" (Number.brief x))

/-- The name of the type an argument asks for. -/
def expectedName : Value → Except Fault String
  | .structType type => .ok type.name
  | .symbol name => .ok name
  | v => .error (.signature "symbol" v.typeName)

/-- Calls a procedure that steers the run. -/
def run (r : Recursion) (op : Control) (args : List Value) : Eval Value :=
  match op, args with
  | .eval, [data] => r.evaluate (data.toTerm .nowhere) .global
  | .format, [template] => do formatText r (← Eval.ofExcept template.asString)
  | .expand, [data] => expandData r data
  | .repeat, [count, procedure] => repeatCall r count procedure
  | .exit, [] => throw (.exit 0)
  | .exit, [status] => do
    let x ← Eval.ofExcept status.asNumber
    throw (.exit x)
  | .expectType, [expected, v] => do
    let name ← Eval.ofExcept (expectedName expected)
    if (← get).conforms v name then return v
    else Eval.fault (.signature name v.typeName)
  | _, args => Eval.ofExcept (Builtin.wrongCount args)

end Control

/-- Performs an operation on arguments. -/
def Operation.run (r : Recursion) (op : Operation) (args : List Value) : Eval Value :=
  match op with
  | .arithmetic op => do Eval.ofExcept (op.run (← Eval.freshStamp) args)
  | .logic op => Eval.ofExcept (op.run args)
  | .sequence op => Eval.ofExcept (op.run args)
  | .inspection op => Eval.ofExcept (op.run args)
  | .errors op => do Eval.ofExcept (op.run (← Eval.freshStamp) args)
  | .structs op => do Eval.ofExcept (op.run (← Eval.freshStamp) args)
  | .host op => op.run args
  | .control op => op.run r args

/-- Calls a built-in procedure from a scope. -/
def Builtin.call (r : Recursion) (b : Builtin) (args : List Value) (scope : Scope) : Eval Value :=
  if b.arity.accepts args.length then Eval.withCaller scope (b.operation.run r args)
  else Eval.fault (.arity b.arity.expected args.length)

end Lisplet
