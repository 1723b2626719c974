import Lisplet.Machine
/-!
# Evaluation in open form

The parts of the evaluator are written without knowing the whole: each takes the two operations it may
call back, evaluating a term in a scope and applying a procedure to values. One step of evaluation
either has a value or goes on with another term in tail position.
-/
namespace Lisplet

/-- The operations that parts of the evaluator call back. -/
structure Recursion where
  evaluate : Code → Scope → Eval Value
  apply : Value → List Value → Eval Value

/-- The outcome of one step: a value, or a term to go on with in a scope. -/
inductive Step where
  | done (v : Value)
  | tail (t : Code) (scope : Scope)

namespace Recursion

/-- Evaluates terms from left to right. -/
def evaluateAll (r : Recursion) (scope : Scope) : List Code → Eval (List Value)
  | [] => pure []
  | t :: ts => do
    let v ← r.evaluate t scope
    let vs ← r.evaluateAll scope ts
    return v :: vs

/-- Evaluates all terms of a body but the last, which is returned. -/
def evaluateLeading (r : Recursion) (scope : Scope) : List Code → Eval Code
  | [] => pure (.nil .nowhere)
  | [t] => pure t
  | t :: ts => do
    let _ ← r.evaluate t scope
    r.evaluateLeading scope ts

end Recursion

end Lisplet
