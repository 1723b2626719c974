import Lisplet.Evaluation.Forms
/-!
# Evaluation

A term is evaluated in a scope. Atoms evaluate to themselves or to what they are bound to; a list is a
special form, a macro call, which is expanded and goes on in its place, or a call, whose head and
operands are evaluated from left to right. A step that ends in tail position goes round the loop
instead of nesting, so tail calls need no depth.

The number of steps is bounded by fuel, which is far beyond what any run can use up; a run that is
allowed more steps than it needs has the same outcome.
-/
namespace Lisplet

namespace Recursion

variable (r : Recursion)

/-! ## Calls -/

/-- Binds names to values in a scope. -/
def bindParams (scope : Scope) : List (String × Value) → Eval Unit
  | [] => pure ()
  | (name, v) :: rest => do
    Eval.define scope name v
    bindParams scope rest

/-- Opens the scope of a closure's body with its parameters bound. -/
def bindArguments (c : Closure Value) (args : List Value) : Eval Scope := do
  if args.length = c.params.length then
    let inner ← Eval.childScope c.scope
    bindParams inner (c.params.zip args)
    return inner
  else Eval.fault (.arity (Nat.repr c.params.length) args.length)

/-- Enters the body of a closure: all but the last term is evaluated. -/
def enter (c : Closure Value) (args : List Value) : Eval (Code × Scope) := do
  let inner ← bindArguments c args
  return (← r.evaluateLeading inner c.body, inner)

/-- Applies a procedure to values from outside any scope. -/
def applyValue (f : Value) (args : List Value) : Eval Value :=
  match f with
  | .builtin b => b.call r args .global
  | .closure _ c => do
    let (last, inner) ← enter r c args
    r.evaluate last inner
  | v => Eval.fault (.notCallable v none)

/-- One step of a call: head and operands are evaluated, then the procedure is entered. -/
def callForm (scope : Scope) (head : Code) (operands : List Code) : Eval Step := do
  let f ← r.evaluate head scope
  let args ← r.evaluateAll scope operands
  match f with
  | .builtin b => return .done (← b.call r args scope)
  | .closure _ c => do
    let (last, inner) ← enter r c args
    return .tail last inner
  | v => Eval.fault (.notCallable v (some head.position))

/-! ## Atoms -/

/-- The text of the parts of a format string, expressions evaluated in a scope. -/
def formatParts (scope : Scope) : List (Part Value) → Eval (List String)
  | [] => pure []
  | .text s :: ps => do return s :: (← formatParts scope ps)
  | .code t :: ps => do
    let v ← r.evaluate t scope
    return v.display :: (← formatParts scope ps)

/-- The value of a term that is no list. -/
def evaluateAtom (scope : Scope) : Code → Eval Value
  | .symbol pos name => Eval.lookup scope name pos
  | .marked _ .quote t => pure t.toValue
  | .marked _ .quasiquote t => quasiquote r scope 0 t
  | .marked pos .unquote _ => Eval.fault (.strayUnquote pos)
  | .format _ ps => do return .string .made (String.join (← formatParts r scope ps))
  | t => pure t.toValue

/-! ## Steps -/

/-- The macro a head is bound to, if it is. -/
def expander? (scope : Scope) (head : Code) : Eval (Option (String × Transformer Value)) := do
  match head.symbol? with
  | none => return none
  | some name =>
    match ← Eval.lookup? scope name with
    | some (.expander _ own t) => return some (own, t)
    | _ => return none

/-- One step of evaluating a term. -/
def step (t : Code) (scope : Scope) : Eval Step :=
  match t with
  | .list pos [] => Eval.fault (.shape .noFunction (some pos))
  | .list pos (head :: operands) =>
    match head.symbol?.bind Keyword.ofName? with
    | some keyword => specialForm r scope pos operands keyword
    | none => do
      match ← expander? scope head with
      | some (name, transformer) =>
        let expansion ← Expansion.expand r name transformer operands
        Eval.trace fun _ => "Expanded " ++ name ++ ": " ++ expansion.source
        return .tail expansion scope
      | none => callForm r scope head operands
  | t => do return .done (← evaluateAtom r scope t)

end Recursion

mutual

/-- Evaluates a term in a scope with at most the given number of steps. -/
def evaluate : Nat → Code → Scope → Eval Value
  | 0, _, _ => throw .outOfFuel
  | n + 1, t, scope => do
    match ← Recursion.step ⟨evaluate n, apply n⟩ t scope with
    | .done v => pure v
    | .tail t' scope' => evaluate n t' scope'

/-- Applies a procedure to values with at most the given number of steps. -/
def apply : Nat → Value → List Value → Eval Value
  | 0, _, _ => throw .outOfFuel
  | n + 1, f, args => Recursion.applyValue ⟨evaluate n, apply n⟩ f args

end

/-- More steps than any run can take. -/
def fuel : Nat := Number.twoTo 62

/-- The evaluator as a whole. -/
def evaluator : Recursion := ⟨evaluate fuel, apply fuel⟩

end Lisplet
