import Lisplet.Fault
/-!
# Arguments

A built-in procedure looks at its arguments from left to right and fails at the first that is not of
the kind it needs.
-/
namespace Lisplet.Value

/-- The number an argument has to be. -/
def asNumber : Value → Except Fault Float
  | number _ x => .ok x
  | v => .error (.signature "num" v.typeName)

/-- The number or quaternion an argument has to be. -/
def asNumeric : Value → Except Fault (Numeric Float)
  | number _ x => .ok (.real x)
  | quaternion _ q => .ok (.quaternion q)
  | v => .error (.signature "num" v.typeName)

/-- The string an argument has to be. -/
def asString : Value → Except Fault String
  | string _ s => .ok s
  | v => .error (.signature "string" v.typeName)

/-- The truth value an argument has to be. -/
def asBoolean : Value → Except Fault Bool
  | boolean b => .ok b
  | v => .error (.signature "bool" v.typeName)

/-- The list an argument has to be. -/
def asList : Value → Except Fault (List Value)
  | list items => .ok items
  | v => .error (.signature "list" v.typeName)

/-- The symbol an argument has to be. -/
def asSymbol : Value → Except Fault String
  | symbol name => .ok name
  | v => .error (.signature "symbol" v.typeName)

/-- The result of arithmetic as a value. -/
def ofNumeric (stamp : Stamp) : Numeric Float → Value
  | .real x => number .made x
  | .quaternion q => quaternion stamp q

end Lisplet.Value

namespace Lisplet.Builtin

/-- What a call with an impossible number of arguments gives; the arity rules such calls out. -/
def wrongCount (args : List Value) : Except Fault Value :=
  .error (.arity "another number" args.length)

end Lisplet.Builtin
