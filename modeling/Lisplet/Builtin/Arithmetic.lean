import Lisplet.Builtin.Arguments
import Lisplet.Number.Double
/-!
# Arithmetic procedures

Sums, differences, products and quotients take numbers and quaternions mixed; everything else takes
numbers, the exponential, the logarithm and the square root apart.
-/
namespace Lisplet

/-- The value of a function of one real number. -/
def RealFunction.apply (x : Float) : RealFunction → Float
  | sine => x.sin
  | cosine => x.cos
  | tangent => x.tan
  | cosecant => 1 / x.sin
  | secant => 1 / x.cos
  | cotangent => 1 / x.tan
  | arcsine => x.asin
  | arccosine => x.acos
  | arctangent => x.atan
  | floor => x.floor
  | ceiling => x.ceil

namespace Arithmetic

/-- The square root; that of a negative number is imaginary. -/
def squareRootOf (x : Float) : Numeric Float :=
  if x < 0 then .quaternion ⟨0, (-x).sqrt, 0, 0⟩ else .real x.sqrt

/-- The result of an arithmetic procedure. -/
def result (args : List Value) : Arithmetic → Except Fault (Numeric Float)
  | add => do return Numeric.sum (← args.mapM Value.asNumeric)
  | multiply => do return Numeric.product (← args.mapM Value.asNumeric)
  | subtract => do
    match ← args.mapM Value.asNumeric with
    | x :: xs => return Numeric.difference x xs
    | [] => .error (.arity "at least 1" 0)
  | divide => do
    match ← args.mapM Value.asNumeric with
    | x :: xs => return Numeric.quotient x xs
    | [] => .error (.arity "at least 1" 0)
  | quaternion => do
    match ← args.mapM Value.asNumber with
    | [a, b, c, d] => return .quaternion ⟨a, b, c, d⟩
    | xs => .error (.arity "4" xs.length)
  | remainder => do
    match ← args.mapM Value.asNumber with
    | [x, y] => return .real (Number.remainder x y)
    | xs => .error (.arity "2" xs.length)
  | power => do
    match ← args.mapM Value.asNumber with
    | [x, y] => return .real (Number.power x y)
    | xs => .error (.arity "2" xs.length)
  | squareRoot => do
    match ← args.mapM Value.asNumber with
    | [x] => return squareRootOf x
    | xs => .error (.arity "1" xs.length)
  | real f => do
    match ← args.mapM Value.asNumber with
    | [x] => return .real (f.apply x)
    | xs => .error (.arity "1" xs.length)
  | exponential => do
    match ← args.mapM Value.asNumeric with
    | [.real x] => return .real x.exp
    | [.quaternion q] => return .quaternion q.exp
    | xs => .error (.arity "1" xs.length)
  | logarithm => do
    match ← args.mapM Value.asNumeric with
    | [.real x] => return .real x.log
    | [.quaternion q] => return .quaternion q.ln
    | xs => .error (.arity "1" xs.length)

/-- Calls an arithmetic procedure. -/
def run (op : Arithmetic) (stamp : Stamp) (args : List Value) : Except Fault Value := do
  return Value.ofNumeric stamp (← op.result args)

end Arithmetic

end Lisplet
