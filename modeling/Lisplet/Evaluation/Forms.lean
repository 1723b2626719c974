import Lisplet.Evaluation.Operations
import Lisplet.Evaluation.Quasiquote
/-!
# Special forms

A list that starts with a keyword is a special form: its operands are terms, and the form decides what
is evaluated, in which scope and in which order. Shapes are checked before anything is evaluated where
the whole shape is known from the start; `cond` checks a clause only when it comes to it. Branches and
the last term of a body are left in tail position.
-/
namespace Lisplet

/-- The words that head special forms. -/
inductive Keyword where
  | define
  | lambda
  | cond
  | branch
  | letIn
  | begin
  | marked (m : Marker)
  | defineStruct
  | defineTemplate
  | defineRule
  | assign
  | attempt
  | load
deriving DecidableEq, Repr

/-- The keyword a name is. -/
def Keyword.ofName? (name : String) : Option Keyword :=
  match name with
  | "define" => some .define
  | "lambda" | "λ" => some .lambda
  | "cond" => some .cond
  | "if" => some .branch
  | "let" => some .letIn
  | "begin" => some .begin
  | "quote" => some (.marked .quote)
  | "quasiquote" => some (.marked .quasiquote)
  | "unquote" => some (.marked .unquote)
  | "define-struct" => some .defineStruct
  | "define-macro" => some .defineTemplate
  | "define-macro-rule" => some .defineRule
  | "set!" => some .assign
  | "try" => some .attempt
  | "import" => some .load
  | _ => none

namespace Fault

/-- A fault of a shape at a place. -/
def shape (code : ErrorCode) (position : Option Position) : Fault :=
  { code := code, position := position }

/-- A term that should have been something else. -/
def wrongTerm (code : ErrorCode) (t : Code) : Fault :=
  { code := code, detail := some t.source, position := some t.position }

/-- A reserved name at the place where it is used. -/
def reservedAt (name : String) (position : Position) : Fault :=
  { code := .reservedIdentifier, detail := some name, position := some position }

/-- An unquoted term that no quasiquote surrounds. -/
def strayUnquote (position : Position) : Fault :=
  { code := .parseFailed, detail := some "unquote outside of a quasiquote", position := some position }

end Fault

namespace Recursion

variable (r : Recursion)

/-! ## Procedures and definitions -/

/-- The names of parameters, which have to be symbols that are not reserved. -/
def paramNames : List Code → Except Fault (List String)
  | [] => .ok []
  | .symbol pos name :: rest =>
    if isReserved name then .error (.reservedAt name pos)
    else do return name :: (← paramNames rest)
  | t :: _ => .error (.wrongTerm .paramNotSymbol t)

/-- Makes a closure. -/
def makeClosure (name : Option String) (params body : List Code) (scope : Scope) : Eval Value := do
  let names ← Eval.ofExcept (paramNames params)
  return .closure (← Eval.freshStamp) ⟨name, names, body, scope⟩

/-- Makes a closure of a parameter list and a body. -/
def lambdaForm (scope : Scope) : List Code → Eval Step
  | .list _ params :: body =>
    if body.isEmpty then Eval.fault (.shape .lambdaSyntax none)
    else do return .done (← makeClosure none params body scope)
  | _ => Eval.fault (.shape .lambdaSyntax none)

/-- A closure without a name takes the name it is defined under; anything else stays as it is. -/
def named (name : String) : Value → Eval Value
  | .closure _ ⟨none, params, body, scope⟩ => do
    return .closure (← Eval.freshStamp) ⟨some name, params, body, scope⟩
  | v => pure v

/-- Defines a procedure by a call pattern and a body. -/
def defineProcedure (scope : Scope) (pos : Position) (pattern body : List Code) : Eval Step :=
  match pattern with
  | [] => Eval.fault (.shape .defineShape (some pos))
  | head :: params =>
    if body.isEmpty then Eval.fault (.shape .defineShape (some pos))
    else match head with
      | .symbol _ name => do
        let v ← makeClosure (some name) params body scope
        Eval.define scope name v
        Eval.trace fun _ => "Defined procedure " ++ name ++ "/" ++ Nat.repr params.length
        return .done .nil
      | t => Eval.fault (.wrongTerm .defineTargetNotSymbol t)

/-- Defines a name or a procedure. -/
def defineForm (scope : Scope) : List Code → Eval Step
  | [] => Eval.fault (.shape .defineShape none)
  | .list pos pattern :: body => defineProcedure scope pos pattern body
  | .symbol _ name :: [term] => do
    let v ← named name (← r.evaluate term scope)
    Eval.define scope name v
    Eval.trace fun _ => "Defined " ++ name
    return .done .nil
  | .symbol pos _ :: _ => Eval.fault (.shape .defineShape (some pos))
  | t :: _ => Eval.fault (.wrongTerm .defineTargetNotSymbol t)

/-- Changes a binding. -/
def assignForm (scope : Scope) (operands : List Code) : Eval Step :=
  match operands with
  | [.symbol pos name, term] =>
    if isReserved name then Eval.fault (.reservedAt name pos)
    else do
      Eval.assign scope name (← r.evaluate term scope)
      return .done .nil
  | [t, _] => Eval.fault (.signature "symbol" t.source)
  | _ => Eval.fault (.arity "2" operands.length)

/-! ## Choices and sequences -/

/-- Goes through clauses to the first whose condition holds. -/
def condForm (scope : Scope) : List Code → Eval Step
  | [] => pure (.done .nil)
  | .list _ [condition, consequent] :: clauses =>
    if condition.isSymbol "else" then pure (.tail consequent scope)
    else do
      match ← r.evaluate condition scope with
      | .boolean true => return .tail consequent scope
      | .boolean false => condForm scope clauses
      | v =>
        Eval.fault {
          code := .condNotBoolean
          detail := some ("found " ++ v.typeName)
          position := some condition.position }
  | .list pos elements :: _ =>
    Eval.fault {
      code := .condCaseLength
      detail := some ("found " ++ Nat.repr elements.length)
      position := some pos }
  | t :: _ => Eval.fault (.shape .condCaseNotList (some t.position))

/-- Chooses one of two terms. -/
def branchForm (scope : Scope) : List Code → Eval Step
  | [condition, consequent, alternative] => do
    match ← r.evaluate condition scope with
    | .boolean true => return .tail consequent scope
    | .boolean false => return .tail alternative scope
    | v => Eval.fault (.signature "bool" v.typeName)
  | operands => Eval.fault (.arity "3" operands.length)

/-- The names and terms of a binding list. -/
def bindingPairs : List Code → Except Fault (List (String × Code))
  | [] => .ok []
  | .list _ [.symbol _ name, term] :: rest => do return (name, term) :: (← bindingPairs rest)
  | .list _ [t, _] :: _ => .error (.wrongTerm .bindingNotSymbol t)
  | .list pos _ :: _ => .error (.shape .bindingShape (some pos))
  | t :: _ => .error (.shape .bindingListSyntax (some t.position))

/-- Binds names in turn; each term sees the names before it. -/
def bindInTurn (scope : Scope) : List (String × Code) → Eval Unit
  | [] => pure ()
  | (name, term) :: rest => do
    Eval.define scope name (← r.evaluate term scope)
    bindInTurn scope rest

/-- The elements of a binding list, which may also be the empty list's own word. -/
def bindingList? : Code → Option (List Code)
  | .list _ elements => some elements
  | .nil _ => some []
  | _ => none

/-- Evaluates a body in a new scope with local bindings. -/
def letForm (scope : Scope) : List Code → Eval Step
  | [] => Eval.fault (.shape .bindingListSyntax none)
  | head :: body =>
    match bindingList? head with
    | none => Eval.fault (.shape .bindingListSyntax none)
    | some elements => do
      let pairs ← Eval.ofExcept (bindingPairs elements)
      if body.isEmpty then Eval.fault (.shape .letBodyMissing (some head.position))
      else
        let inner ← Eval.childScope scope
        bindInTurn r inner pairs
        return .tail (← r.evaluateLeading inner body) inner

/-- Evaluates terms in turn. -/
def beginForm (scope : Scope) (body : List Code) : Eval Step :=
  if body.isEmpty then pure (.done .nil)
  else do return .tail (← r.evaluateLeading scope body) scope

/-! ## Quotation -/

/-- The one operand of a form. -/
def single : List Code → Except Fault Code
  | [t] => .ok t
  | ts => .error (.arity "1" ts.length)

/-- Quotation in the long spelling; `pos` is the place of the form. -/
def markedForm (scope : Scope) (pos : Position) (operands : List Code) : Marker → Eval Step
  | .quote => do return .done (← Eval.ofExcept (single operands)).toValue
  | .quasiquote => do
    let t ← Eval.ofExcept (single operands)
    return .done (← quasiquote r scope 0 t)
  | .unquote => Eval.fault (.strayUnquote pos)

/-! ## Structs and macros -/

/-- Binds procedures under their own names. -/
def defineBuiltins (scope : Scope) : List Builtin → Eval Unit
  | [] => pure ()
  | b :: bs => do
    Eval.define scope b.name (.builtin b)
    defineBuiltins scope bs

/-- Registers a struct type. -/
def registerStruct (name : String) (fields : List String) : Eval StructType := fun s =>
  match s.registry.register name fields with
  | some (type, registry) => .ok type { s with registry := registry }
  | none => .error (.fault (.tooManyStructs s.registry.capacity)) s

/-- Defines a struct type and its procedures. -/
def structForm (scope : Scope) : List Code → Eval Step
  | [.symbol _ name, .list _ elements] =>
    match elements.mapM Term.symbol? with
    | none => Eval.fault (.shape .structSyntax none)
    | some fields => do
      let type ← registerStruct name fields
      Eval.define scope name (.structType type)
      defineBuiltins scope (Builtin.ofStructType type)
      Eval.trace fun _ =>
        "Registered struct " ++ name ++ " [" ++ " ".intercalate fields ++ "] (#" ++
          Nat.repr type.id ++ ")"
      return .done .nil
  | _ => Eval.fault (.shape .structSyntax none)

/-- The name and the operands of a macro's call pattern, and its body. -/
def macroSignature : List Code → Except Fault (String × List Code × Code)
  | [.list _ (.symbol _ name :: params), body] => .ok (name, params, body)
  | [.list _ (t :: _), _] => .error (.wrongTerm .defineTargetNotSymbol t)
  | [t, _] => .error (.shape .defineShape (some t.position))
  | _ => .error (.shape .defineShape none)

/-- The names of a macro's parameters, which have to be symbols. -/
def macroParams : List Code → Except Fault (List String)
  | [] => .ok []
  | .symbol _ name :: rest => do return name :: (← macroParams rest)
  | t :: _ => .error (.wrongTerm .paramNotSymbol t)

/-- Defines a macro that fills a template. -/
def templateForm (scope : Scope) (operands : List Code) : Eval Step := do
  let (name, params, body) ← Eval.ofExcept (macroSignature operands)
  let names ← Eval.ofExcept (macroParams params)
  let stamp ← Eval.freshStamp
  Eval.define scope name (.expander stamp name (.template names body scope))
  Eval.trace fun _ => "Defined macro " ++ name
  return .done .nil

/-- Defines a macro that matches a pattern. -/
def ruleForm (scope : Scope) (operands : List Code) : Eval Step := do
  let (name, pattern, body) ← Eval.ofExcept (macroSignature operands)
  let stamp ← Eval.freshStamp
  Eval.define scope name (.expander stamp name (.rule pattern body))
  Eval.trace fun _ => "Defined rule macro " ++ name
  return .done .nil

/-! ## Faults and files -/

/-- Runs a term and hands a fault to a handler. Only faults are caught; what the term did before
stays done. -/
def catching (body : Eval Value) (handle : Fault → Eval Value) : Eval Value := fun s =>
  match body s with
  | .error (.fault f) s' => handle f s'
  | other => other

/-- Evaluates a term with a handler for its fault. -/
def attemptForm (scope : Scope) : List Code → Eval Step
  | [body, handlerTerm] => do
    let handler ← r.evaluate handlerTerm scope
    if handler.isProcedure then
      let v ← catching (r.evaluate body scope) fun f => do
        Eval.trace fun _ => "Caught " ++ f.message
        r.apply handler [f.toValue (← Eval.freshStamp)]
      return .done v
    else Eval.fault (.notCallable handler (some handlerTerm.position))
  | operands => Eval.fault (.arity "2" operands.length)

/-- Evaluates terms in turn in a scope; the last value counts, and there is none without terms. -/
def evaluateForms (scope : Scope) : List Code → Eval Value
  | [] => pure .nil
  | [t] => r.evaluate t scope
  | t :: ts => do
    let _ ← r.evaluate t scope
    evaluateForms scope ts

/-- Reads a text and evaluates its forms in a scope. -/
def evaluateSource (scope : Scope) (source : String) : Eval Value := do
  let forms ← Eval.ofExcept (Fault.readForms source)
  evaluateForms r scope forms

/-- Evaluates a file in the global scope, unless it is being imported already. -/
def importFile (file : String) : Eval Unit := Eval.importWith (fun _ text => evaluateSource r .global text) file

/-- Imports the file a term names. -/
def importForm (scope : Scope) (operands : List Code) : Eval Step := do
  let t ← Eval.ofExcept (single operands)
  let file ← Eval.ofExcept (← r.evaluate t scope).asString
  importFile r file
  return .done .nil

/-! ## All forms -/

/-- One step of the special form of a keyword; `pos` is the place of the form. -/
def specialForm (scope : Scope) (pos : Position) (operands : List Code) : Keyword → Eval Step
  | .define => defineForm r scope operands
  | .lambda => lambdaForm scope operands
  | .cond => condForm r scope operands
  | .branch => branchForm r scope operands
  | .letIn => letForm r scope operands
  | .begin => beginForm r scope operands
  | .marked m => markedForm r scope pos operands m
  | .defineStruct => structForm scope operands
  | .defineTemplate => templateForm scope operands
  | .defineRule => ruleForm scope operands
  | .assign => assignForm r scope operands
  | .attempt => attemptForm r scope operands
  | .load => importForm r scope operands

end Recursion

end Lisplet
