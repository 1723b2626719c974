import Lisplet.Builtin.Arguments
/-!
# Procedures on structs and errors

A struct type comes with a constructor, a test and an accessor for each field; a field can also be
taken by its name. An accessor refuses a struct of another type. An error value has a code of the
catalogue, a description and perhaps a payload. Raising one makes it a fault again.
-/

/-! ## Struct values -/

namespace Lisplet.StructOperation

/-- The field of a struct by its name. -/
def field (type : StructType) (values : List Value) (name : String) : Except Fault Value :=
  match values[type.fields.idxOf name]? with
  | some v => .ok v
  | none => .error (.noSuchField type name)

/-- Calls a procedure on structs. -/
def run (op : StructOperation) (stamp : Stamp) (args : List Value) : Except Fault Value :=
  match op, args with
  | get, [.struct _ type values, name] => do field type values (← name.asSymbol)
  | get, [v, _] => .error (.signature "struct" v.typeName)
  | typeOf, [.struct _ type _] => .ok (.structType type)
  | typeOf, [v] => .error (.signature "struct" v.typeName)
  | fields, [.struct _ type _] => .ok (.list (type.fields.map .symbol))
  | fields, [.structType type] => .ok (.list (type.fields.map .symbol))
  | fields, [v] => .error (.signature "struct-type" v.typeName)
  | construct type, args => .ok (.struct stamp type args)
  | test type, [.struct _ t _] => .ok (.boolean (t.id == type.id))
  | test _, [_] => .ok (.boolean false)
  | access type index name, [.struct _ t values] =>
    if t.id = type.id then
      match values[index]? with
      | some v => .ok v
      | none => .error (.noSuchField t name)
    else .error (.noSuchField t name)
  | access type _ _, [v] => .error (.signature type.name v.typeName)
  | _, args => Builtin.wrongCount args

end Lisplet.StructOperation

/-! ## Error values -/

namespace Lisplet

/-- The code a number stands for, as an argument. -/
def ErrorCode.ofArgument (v : Value) : Except Fault ErrorCode := do
  let x ← v.asNumber
  match (Number.toInt? x).bind fun n => ofNumber? n.toNat with
  | some code => return code
  | none => .error (.signature "error code between 1 and 32" (Number.brief x))

namespace ErrorHandling

/-- Makes an error value. -/
def create (stamp : Stamp) (code description : Value) (payload : Option Value) :
    Except Fault Value := do
  let c ← ErrorCode.ofArgument code
  let d ← description.asString
  return .error stamp c d payload

/-- Calls a procedure on errors. -/
def run (op : ErrorHandling) (stamp : Stamp) (args : List Value) : Except Fault Value :=
  match op, args with
  | make, [c, d] => create stamp c d none
  | make, [c, d, p] => create stamp c d (some p)
  | raise, [.error _ c d p] => .error (.ofError c d p)
  | test, [.error _ _ _ _] => .ok (.boolean true)
  | test, [_] => .ok (.boolean false)
  | code, [.error _ c _ _] => .ok (.number .made (Float.ofNat c.number))
  | description, [.error _ _ d _] => .ok (.string .made d)
  | payload, [.error _ _ _ p] => .ok (p.getD .nil)
  | catalogue, [v] => do return .string .made (← ErrorCode.ofArgument v).description
  | _, [v] => .error (.signature "error" v.typeName)
  | _, args => Builtin.wrongCount args

end ErrorHandling

end Lisplet
