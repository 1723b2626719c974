import Lisplet.SyntaxError
import Lisplet.Value.Printer
/-!
# Faults

A fault is an error of the language on its way up: a code with its description, an optional detail,
an optional value and the place it arose at. Caught, it becomes an error value, which keeps code,
description and value only.
-/
namespace Lisplet

/-- An error that has been raised. -/
structure Fault where
  code : ErrorCode
  description : String := code.description
  detail : Option String := none
  payload : Option Value := none
  position : Option Position := none

namespace Fault

/-- The line a fault is known by. -/
def message (f : Fault) : String := Value.errorLine f.code f.description

/-- How a place is put in an error. -/
def place (p : Position) : String :=
  "at line " ++ toString p.line ++ ", column " ++ toString p.column

/-- A fault as it is reported: its line and, indented on a second one, what else is known. -/
def text (f : Fault) : String :=
  let known := (f.detail.toList ++ (f.position.map place).toList).filter (· ≠ "")
  if known.isEmpty then f.message else f.message ++ "\n  " ++ " ".intercalate known

/-- A fault as a value. -/
def toValue (f : Fault) (stamp : Stamp) : Value := .error stamp f.code f.description f.payload

/-- The fault an error value raises. -/
def ofError (code : ErrorCode) (description : String) (payload : Option Value) : Fault where
  code := code
  description := description
  payload := payload

/-- A fault from an error of reading. -/
def ofSyntax (e : SyntaxError) : Fault where
  code := e.code
  detail := e.detail
  position := some e.position

/-- A fault from an error of reading at no known place. -/
def ofCause (c : SyntaxError.Cause) : Fault where
  code := c.code
  detail := c.detail

/-- A fault from a refused binding. -/
def ofScope (e : ScopeError) : Fault where
  code := e.code
  detail := some e.name

/-- Something else was expected. -/
def signature (expected found : String) : Fault where
  code := .signatureMismatch
  detail := some ("expected " ++ expected ++ ", found " ++ found)

/-- Another number of arguments was expected. -/
def arity (expected : String) (found : Nat) : Fault where
  code := .arityMismatch
  detail := some ("expected " ++ expected ++ ", found " ++ Nat.repr found)

/-- A value that cannot be called. -/
def notCallable (v : Value) (position : Option Position) : Fault where
  code := .notCallable
  detail := some v.repr
  position := position

/-- A field that a struct type does not have. -/
def noSuchField (type : StructType) (field : String) : Fault where
  code := .noSuchField
  detail := some (type.name ++ " has no field " ++ field)

/-- A registry that is full. -/
def tooManyStructs (capacity : Int) : Fault where
  code := .tooManyStructs
  detail := some ("limit is " ++ Int.repr capacity)

/-- An identifier without a meaning; one that names a struct's missing field says so. -/
def unbound (registry : Registry) (name : String) (position : Position) : Fault :=
  match registry.missingField? name with
  | some (type, field) => noSuchField type field
  | none => { code := .undefinedIdentifier, detail := some name, position := some position }

end Fault

end Lisplet
