import Lisplet.Builtin.Arguments
import Lisplet.Term.Reader
import Lisplet.Value.Bridge
import Lisplet.Value.Equality
/-!
# Procedures on plain values

Equality takes any two values; order takes numbers; conjunction and disjunction look at all their
arguments before they decide. Lists are built from the front and joined; the head and the tail of an
empty list are errors of their own. A string is joined from any values in displayed form, and splits
into strings of one character. The type of a value is a symbol. A string can be read as code, of which
there must be one form.

Main statement: joining lists is flattening them (`joined_eq_flatten`).
-/

/-! ## Comparison and truth values -/

namespace Lisplet.Logic

/-- Compares two numbers. -/
def compare (test : Float → Float → Bool) : List Value → Except Fault Value
  | [a, b] => do
    let x ← a.asNumber
    let y ← b.asNumber
    return .boolean (test x y)
  | args => Builtin.wrongCount args

/-- Calls a procedure of comparison or logic. -/
def run (op : Logic) (args : List Value) : Except Fault Value :=
  match op with
  | equal =>
    match args with
    | [a, b] => .ok (.boolean (a.equal b))
    | _ => Builtin.wrongCount args
  | less => compare (fun x y => x < y) args
  | lessOrEqual => compare (fun x y => x ≤ y) args
  | greater => compare (fun x y => x > y) args
  | greaterOrEqual => compare (fun x y => x ≥ y) args
  | conjunction => do return .boolean ((← args.mapM Value.asBoolean).all id)
  | disjunction => do return .boolean ((← args.mapM Value.asBoolean).any id)
  | negation =>
    match args with
    | [a] => do return .boolean (!(← a.asBoolean))
    | _ => Builtin.wrongCount args

end Lisplet.Logic

/-! ## Lists and strings -/

namespace Lisplet.Sequence

/-- Lists end to end; the last one is taken as it is. -/
def joined {α : Type} : List (List α) → List α
  | [] => []
  | [last] => last
  | first :: rest => first ++ joined rest

theorem joined_eq_flatten {α : Type} (ls : List (List α)) : joined ls = ls.flatten := by
  fun_induction joined ls with
  | case1 => rfl
  | case2 last => simp
  | case3 first rest _ ih => simp [ih]

/-- Calls a procedure on lists or strings. -/
def run (op : Sequence) (args : List Value) : Except Fault Value :=
  match op, args with
  | cons, [v, vs] => do return .list (v :: (← vs.asList))
  | head, [xs] => do
    match ← xs.asList with
    | [] => .error { code := .headOfEmpty }
    | v :: _ => return v
  | tail, [xs] => do
    match ← xs.asList with
    | [] => .error { code := .tailOfEmpty }
    | _ :: vs => return .list vs
  | list, args => .ok (.list args)
  | append, args => do return .list (joined (← args.mapM Value.asList))
  | isEmpty, [xs] => do return .boolean (← xs.asList).isEmpty
  | length, [xs] => do return .number .made (Float.ofNat (← xs.asList).length)
  | concatenate, args => .ok (.string .made (Value.displayAll args))
  | characters, [s] => do
    return .list ((← s.asString).toList.map fun c => .string .made c.toString)
  | _, args => Builtin.wrongCount args

end Lisplet.Sequence

/-! ## Types and reading -/

namespace Lisplet

/-- Reads all forms of a text. -/
def Fault.readForms (source : String) : Except Fault (List Code) :=
  match Reader.readSource source with
  | .ok forms => .ok forms
  | .error e => .error (.ofSyntax e)

/-- Reads a text that has to be a single form. -/
def Fault.readForm (source : String) : Except Fault Code := do
  match ← readForms source with
  | [t] => return t
  | ts =>
    .error {
      code := .parseFailed
      detail := some ("expected one expression, found " ++ Nat.repr ts.length) }

/-- Calls a procedure of inspection. -/
def Inspection.run (op : Inspection) (args : List Value) : Except Fault Value :=
  match op, args with
  | typeOf, [v] => .ok (.symbol v.typeName)
  | parse, [v] => do return (← Fault.readForm (← v.asString)).toValue
  | _, args => Builtin.wrongCount args

end Lisplet
