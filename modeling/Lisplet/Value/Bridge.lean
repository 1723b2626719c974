import Lisplet.Value
/-!
# Code as data and data as code

Quoting turns a term into the data it denotes: quote marks become two-element lists, and a format
string becomes a call that joins its parts. Going back, data that has a spelling becomes a term, and
any other value is embedded as it is.
-/
namespace Lisplet

mutual

/-- The data a quoted term denotes. -/
def Term.toValue : Code → Value
  | .number _ x => .number .made x
  | .string _ s => .string .made s
  | .symbol _ name => .symbol name
  | .boolean _ b => .boolean b
  | .nil _ => .nil
  | .list _ ts => .list (Term.toValues ts)
  | .marked _ m t => .list [.symbol m.word, Term.toValue t]
  | .format _ ps => .list (.symbol "string-concat" :: Term.partValues ps)
  | .embedded _ v => v
termination_by structural t => t

/-- The data of a row of terms. -/
def Term.toValues : List Code → List Value
  | [] => []
  | t :: ts => Term.toValue t :: Term.toValues ts
termination_by structural ts => ts

/-- The data of the parts of a format string. -/
def Term.partValues : List (Part Value) → List Value
  | [] => []
  | .text s :: ps => .string .made s :: Term.partValues ps
  | .code t :: ps => Term.toValue t :: Term.partValues ps
termination_by structural ps => ps

end

mutual

/-- The term that stands for a value, every node placed at `pos`. -/
def Value.toTerm (pos : Position) : Value → Code
  | .number _ x => .number pos x
  | .string _ s => .string pos s
  | .symbol name => .symbol pos name
  | .boolean b => .boolean pos b
  | .list items => .list pos (Value.toTerms pos items)
  | v => .embedded pos v
termination_by structural v => v

/-- The terms that stand for a row of values. -/
def Value.toTerms (pos : Position) : List Value → List Code
  | [] => []
  | v :: vs => Value.toTerm pos v :: Value.toTerms pos vs
termination_by structural vs => vs

end

end Lisplet
