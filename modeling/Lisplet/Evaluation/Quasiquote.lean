import Lisplet.Evaluation.Recursion
import Lisplet.Value.Bridge
/-!
# Quasiquotation

A quasiquoted template is data with holes. A hole is an unquoted term, in the short or the long
spelling, at depth zero; the depth grows inside a quasiquote and shrinks inside an unquote that is no
hole. Holes are evaluated from left to right; everything else is taken as it is, format strings
included.
-/
namespace Lisplet.Recursion

/-- The two-element list a marked form stands for. -/
def markedValue (m : Marker) (v : Value) : Value := .list [.symbol m.word, v]

mutual

/-- The data of a template at a depth, its holes filled. -/
def quasiquote (r : Recursion) (scope : Scope) : Nat → Code → Eval Value
  | 0, .marked _ .unquote t => r.evaluate t scope
  | d + 1, .marked _ .unquote t => do return markedValue .unquote (← quasiquote r scope d t)
  | d, .marked _ .quasiquote t => do return markedValue .quasiquote (← quasiquote r scope (d + 1) t)
  | d, .marked _ .quote t => do return markedValue .quote (← quasiquote r scope d t)
  | 0, .list _ [.symbol _ "unquote", t] => r.evaluate t scope
  | d + 1, .list _ [.symbol _ "unquote", t] => do
    return markedValue .unquote (← quasiquote r scope d t)
  | d, .list _ ts => do return .list (← quasiquoteAll r scope d ts)
  | _, t => pure t.toValue
termination_by structural _ t => t

/-- The data of a row of templates, from left to right. -/
def quasiquoteAll (r : Recursion) (scope : Scope) : Nat → List Code → Eval (List Value)
  | _, [] => pure []
  | d, t :: ts => do
    let v ← quasiquote r scope d t
    let vs ← quasiquoteAll r scope d ts
    return v :: vs
termination_by structural _ ts => ts

end

end Lisplet.Recursion
