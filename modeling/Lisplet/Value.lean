import Lisplet.Builtin
import Lisplet.ErrorCode
import Lisplet.Quaternion
import Lisplet.Scope
import Lisplet.Term
/-!
# Values

Every term evaluates to a value: data, a procedure, a macro, a struct or an error. Lists are proper,
and the empty list is the one nothing-value. A closure keeps the scope it was made in, a macro either
that scope and a template or a pattern to match.

Whatever has an identity of its own carries the stamp it was made with; two such values are identical
when the stamps agree (`Value.identical`). Of numbers and strings only the constants of the language
can be told from others that hold the same, so these carry just their origin.
-/
namespace Lisplet

/-- The mark of one act of making a value. -/
abbrev Stamp := Nat

/-- A procedure with its parameters, its body and the scope it was made in. -/
structure Closure (α : Type) where
  name : Option String
  params : List String
  body : List (Term α)
  scope : Scope

/-- How a macro transforms a call: by filling a template, or by matching a pattern. -/
inductive Transformer (α : Type) where
  | template (params : List String) (body : Term α) (scope : Scope)
  | rule (pattern : List (Term α)) (template : Term α)

/-- Whether a number or a string was there from the start or came about in a run. -/
inductive Origin where
  | given
  | made
deriving DecidableEq, Repr

/-- A value of the language. -/
inductive Value where
  | number (origin : Origin) (x : Float)
  | quaternion (stamp : Stamp) (q : Quaternion Float)
  | string (origin : Origin) (s : String)
  | symbol (name : String)
  | boolean (b : Bool)
  | list (items : List Value)
  | closure (stamp : Stamp) (c : Closure Value)
  | expander (stamp : Stamp) (name : String) (t : Transformer Value)
  | structType (type : StructType)
  | struct (stamp : Stamp) (type : StructType) (fields : List Value)
  | builtin (b : Builtin)
  | error (stamp : Stamp) (code : ErrorCode) (description : String) (payload : Option Value)

/-- A term whose embedded values are values of the language. -/
abbrev Code := Term Value

namespace Value

/-- The empty list. -/
def nil : Value := list []

instance : Inhabited Value := ⟨nil⟩

/-- Whether a value is the empty list. -/
def isNil : Value → Bool
  | list [] => true
  | _ => false

/-- Whether a value can be called. -/
def isProcedure : Value → Bool
  | closure _ _ => true
  | builtin _ => true
  | _ => false

/-- The name of a value's type. -/
def typeName : Value → String
  | number _ _ => "num"
  | quaternion _ _ => "quaternion"
  | string _ _ => "string"
  | symbol _ => "symbol"
  | boolean _ => "bool"
  | list _ => "list"
  | closure _ _ => "procedure"
  | builtin _ => "procedure"
  | expander _ _ _ => "macro"
  | structType _ => "struct-type"
  | struct _ type _ => type.name
  | error _ _ _ _ => "error"

mutual

/-- Identity: what was made once is the same as itself only; plain data goes by what it holds. -/
def identical : Value → Value → Bool
  | number o x, number o' y => o == o' && x.toBits == y.toBits
  | string o s, string o' t => o == o' && s == t
  | symbol s, symbol t => s == t
  | boolean b, boolean c => b == c
  | list xs, list ys => identicalAll xs ys
  | quaternion s _, quaternion t _ => s == t
  | closure s _, closure t _ => s == t
  | expander s _ _, expander t _ _ => s == t
  | structType s, structType t => s.id == t.id
  | struct s _ _, struct t _ _ => s == t
  | builtin b, builtin c => b == c
  | error s _ _ _, error t _ _ _ => s == t
  | _, _ => false
termination_by structural v => v

/-- Identity of two rows of values. -/
def identicalAll : List Value → List Value → Bool
  | [], [] => true
  | v :: vs, w :: ws => identical v w && identicalAll vs ws
  | _, _ => false
termination_by structural vs => vs

end

instance : Identity Value := ⟨identical⟩

end Value

end Lisplet
