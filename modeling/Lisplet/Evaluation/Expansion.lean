import Lisplet.Evaluation.Recursion
import Lisplet.Term.Printer
import Lisplet.Value.Bridge
/-!
# Macro expansion

A macro transforms a call before it is evaluated. A rule matches the operands against patterns: a symbol
other than the macro's own name stands for any term, the same one each time, lists match element by
element, and everything else matches an equal term. The matched terms are then put into the template
all at once. A template macro fills the holes of a quasiquoted body: a parameter by the operand term,
any other hole by the value of its expression in a scope where the parameters are bound to the
operands as data.
-/
namespace Lisplet.Expansion

/-! ## Rules -/

/-- A term that does not fit a pattern. -/
def mismatch (pattern term : Code) : Fault :=
  { Fault.signature pattern.source term.source with position := some term.position }

/-- Matches a symbol that stands for a term. -/
def matchVariable (pattern : Code) (name : String) (term : Code) (found : Bindings Code) :
    Except Fault (Bindings Code) :=
  match found.value? name with
  | some earlier =>
    if earlier.same term then .ok (found.put name term) else .error (mismatch pattern term)
  | none => .ok (found.put name term)

mutual

/-- Matches a term against a pattern of the macro `name`, adding to what was found before. -/
def matchTerm (name : String) : Code → Code → Bindings Code → Except Fault (Bindings Code)
  | .symbol pos x, term, found =>
    if x = name then
      if Term.same (.symbol pos x) term then .ok found else .error (mismatch (.symbol pos x) term)
    else matchVariable (.symbol pos x) x term found
  | .list pos ps, term, found =>
    match term with
    | .list _ ts =>
      if ps.length = ts.length then matchAll name ps ts found
      else .error (mismatch (.list pos ps) term)
    | _ => .error (mismatch (.list pos ps) term)
  | pattern, term, found =>
    if pattern.same term then .ok found else .error (mismatch pattern term)
termination_by structural pattern => pattern

/-- Matches terms against patterns, one by one. -/
def matchAll (name : String) : List Code → List Code → Bindings Code → Except Fault (Bindings Code)
  | p :: ps, t :: ts, found =>
    match matchTerm name p t found with
    | .ok found' => matchAll name ps ts found'
    | .error f => .error f
  | _, _, found => .ok found
termination_by structural patterns => patterns

end

mutual

/-- Puts terms for symbols, everywhere in a template. -/
def substitute (found : Bindings Code) : Code → Code
  | .symbol pos name => (found.value? name).getD (.symbol pos name)
  | .list pos ts => .list pos (substituteAll found ts)
  | .marked pos m t => .marked pos m (substitute found t)
  | .format pos ps => .format pos (substituteParts found ps)
  | t => t
termination_by structural t => t

/-- Puts terms for symbols in a row of templates. -/
def substituteAll (found : Bindings Code) : List Code → List Code
  | [] => []
  | t :: ts => substitute found t :: substituteAll found ts
termination_by structural ts => ts

/-- Puts terms for symbols in the parts of a format string. -/
def substituteParts (found : Bindings Code) : List (Part Value) → List (Part Value)
  | [] => []
  | .text s :: ps => .text s :: substituteParts found ps
  | .code t :: ps => .code (substitute found t) :: substituteParts found ps
termination_by structural ps => ps

end

/-- Expands a call of the rule macro `name`. -/
def expandRule (name : String) (pattern : List Code) (template : Code) (operands : List Code) :
    Except Fault Code :=
  if operands.length = pattern.length then
    match matchAll name pattern operands [] with
    | .ok found => .ok (substitute found template)
    | .error f => .error f
  else .error (.arity (Nat.repr pattern.length) operands.length)

/-! ## Templates -/

/-- The term that fills a hole: the operand of a parameter, or the value of an expression. -/
def fillHole (r : Recursion) (args : Bindings Code) (scope : Scope) (pos : Position) (t : Code) :
    Eval Code :=
  match t.symbol?.bind args.value? with
  | some operand => pure operand
  | none => do return (← r.evaluate t scope).toTerm pos

mutual

/-- Fills the holes of a template at a depth. -/
def fill (r : Recursion) (args : Bindings Code) (scope : Scope) : Nat → Code → Eval Code
  | 0, .marked pos .unquote t => fillHole r args scope pos t
  | d + 1, .marked pos .unquote t => do return .marked pos .unquote (← fill r args scope d t)
  | d, .marked pos .quasiquote t => do
    return .marked pos .quasiquote (← fill r args scope (d + 1) t)
  | d, .marked pos .quote t => do return .marked pos .quote (← fill r args scope d t)
  | d, .list pos ts => do return .list pos (← fillAll r args scope d ts)
  | d, .format pos ps => do return .format pos (← fillParts r args scope d ps)
  | _, t => pure t
termination_by structural _ t => t

/-- Fills the holes of a row of templates, from left to right. -/
def fillAll (r : Recursion) (args : Bindings Code) (scope : Scope) :
    Nat → List Code → Eval (List Code)
  | _, [] => pure []
  | d, t :: ts => do
    let u ← fill r args scope d t
    let us ← fillAll r args scope d ts
    return u :: us
termination_by structural _ ts => ts

/-- Fills the holes in the expressions of a format string. -/
def fillParts (r : Recursion) (args : Bindings Code) (scope : Scope) :
    Nat → List (Part Value) → Eval (List (Part Value))
  | _, [] => pure []
  | d, .text s :: ps => do return .text s :: (← fillParts r args scope d ps)
  | d, .code t :: ps => do
    let u ← fill r args scope d t
    let us ← fillParts r args scope d ps
    return .code u :: us
termination_by structural _ ps => ps

end

/-- Binds each parameter to the data of its operand. -/
def bindOperands (scope : Scope) : List (String × Code) → Eval Unit
  | [] => pure ()
  | (param, operand) :: rest => do
    Eval.define scope param operand.toValue
    bindOperands scope rest

/-- The operand of each parameter; of two parameters of one name the later counts. -/
def operandsByName (pairs : List (String × Code)) : Bindings Code :=
  pairs.foldl (fun args (param, operand) => args.put param operand) []

/-- Expands a call of a template macro. -/
def expandTemplate (r : Recursion) (params : List String) (body : Code) (scope : Scope)
    (operands : List Code) : Eval Code := do
  if operands.length = params.length then
    let pairs := params.zip operands
    let inner ← Eval.childScope scope
    bindOperands inner pairs
    match body with
    | .marked _ .quasiquote template => fill r (operandsByName pairs) inner 0 template
    | _ => return (← r.evaluate body inner).toTerm body.position
  else Eval.fault (.arity (Nat.repr params.length) operands.length)

/-- Expands a call of the macro `name` with the given operands. -/
def expand (r : Recursion) (name : String) (t : Transformer Value) (operands : List Code) :
    Eval Code :=
  match t with
  | .template params body scope => expandTemplate r params body scope operands
  | .rule pattern template => Eval.ofExcept (expandRule name pattern template operands)

end Lisplet.Expansion
