import Lisplet.Interpreter
import Lisplet.Proofs.Evaluation.Moves
/-!
# Evaluation by plain recursion

The evaluator goes round a loop when a step ends in tail position. Here the same language is evaluated
without steps: the last term of a body, the chosen branch or consequent and the expansion of a macro are
evaluated by a call of their own, whose result is the result. Both evaluators have the same outcome
on every term, in every scope and store (`evaluate_eq_direct`); the whole difference is where a
step leaves off, and a form that is settled by plain recursion is the form itself (`step_settle`).
-/
namespace Lisplet

namespace Direct

variable (r : Recursion)

/-! ## Definitions -/

/-- Makes a closure of a parameter list and a body. -/
def lambdaForm (scope : Scope) : List Code → Eval Value
  | .list _ params :: body =>
    if body.isEmpty then Eval.fault (.shape .lambdaSyntax none)
    else Recursion.makeClosure none params body scope
  | _ => Eval.fault (.shape .lambdaSyntax none)

/-- Defines a procedure by a call pattern and a body. -/
def defineProcedure (scope : Scope) (pos : Position) (pattern body : List Code) : Eval Value :=
  match pattern with
  | [] => Eval.fault (.shape .defineShape (some pos))
  | head :: params =>
    if body.isEmpty then Eval.fault (.shape .defineShape (some pos))
    else match head with
      | .symbol _ name => do
        let v ← Recursion.makeClosure (some name) params body scope
        Eval.define scope name v
        Eval.trace fun _ => "Defined procedure " ++ name ++ "/" ++ Nat.repr params.length
        return .nil
      | t => Eval.fault (.wrongTerm .defineTargetNotSymbol t)

/-- Defines a name or a procedure. -/
def defineForm (scope : Scope) : List Code → Eval Value
  | [] => Eval.fault (.shape .defineShape none)
  | .list pos pattern :: body => defineProcedure scope pos pattern body
  | .symbol _ name :: [term] => do
    let v ← Recursion.named name (← r.evaluate term scope)
    Eval.define scope name v
    Eval.trace fun _ => "Defined " ++ name
    return .nil
  | .symbol pos _ :: _ => Eval.fault (.shape .defineShape (some pos))
  | t :: _ => Eval.fault (.wrongTerm .defineTargetNotSymbol t)

/-- Changes a binding. -/
def assignForm (scope : Scope) (operands : List Code) : Eval Value :=
  match operands with
  | [.symbol pos name, term] =>
    if isReserved name then Eval.fault (.reservedAt name pos)
    else do
      Eval.assign scope name (← r.evaluate term scope)
      return .nil
  | [t, _] => Eval.fault (.signature "symbol" t.source)
  | _ => Eval.fault (.arity "2" operands.length)

/-- Defines a struct type and its procedures. -/
def structForm (scope : Scope) : List Code → Eval Value
  | [.symbol _ name, .list _ elements] =>
    match elements.mapM Term.symbol? with
    | none => Eval.fault (.shape .structSyntax none)
    | some fields => do
      let type ← Recursion.registerStruct name fields
      Eval.define scope name (.structType type)
      Recursion.defineBuiltins scope (Builtin.ofStructType type)
      Eval.trace fun _ =>
        "Registered struct " ++ name ++ " [" ++ " ".intercalate fields ++ "] (#" ++ Nat.repr type.id ++ ")"
      return .nil
  | _ => Eval.fault (.shape .structSyntax none)

/-- Defines a macro that fills a template. -/
def templateForm (scope : Scope) (operands : List Code) : Eval Value := do
  let (name, params, body) ← Eval.ofExcept (Recursion.macroSignature operands)
  let names ← Eval.ofExcept (Recursion.macroParams params)
  let stamp ← Eval.freshStamp
  Eval.define scope name (.expander stamp name (.template names body scope))
  Eval.trace fun _ => "Defined macro " ++ name
  return .nil

/-- Defines a macro that matches a pattern. -/
def ruleForm (scope : Scope) (operands : List Code) : Eval Value := do
  let (name, pattern, body) ← Eval.ofExcept (Recursion.macroSignature operands)
  let stamp ← Eval.freshStamp
  Eval.define scope name (.expander stamp name (.rule pattern body))
  Eval.trace fun _ => "Defined rule macro " ++ name
  return .nil

/-! ## Choices and sequences -/

/-- Goes through clauses to the first whose condition holds, and evaluates its consequent. -/
def condForm (scope : Scope) : List Code → Eval Value
  | [] => pure .nil
  | .list _ [condition, consequent] :: clauses =>
    if condition.isSymbol "else" then r.evaluate consequent scope
    else do
      match ← r.evaluate condition scope with
      | .boolean true => r.evaluate consequent scope
      | .boolean false => condForm scope clauses
      | v =>
        Eval.fault {
          code := .condNotBoolean
          detail := some ("found " ++ v.typeName)
          position := some condition.position }
  | .list pos elements :: _ =>
    Eval.fault {
      code := .condCaseLength
      detail := some ("found " ++ Nat.repr elements.length)
      position := some pos }
  | t :: _ => Eval.fault (.shape .condCaseNotList (some t.position))

/-- Evaluates one of two terms. -/
def branchForm (scope : Scope) : List Code → Eval Value
  | [condition, consequent, alternative] => do
    match ← r.evaluate condition scope with
    | .boolean true => r.evaluate consequent scope
    | .boolean false => r.evaluate alternative scope
    | v => Eval.fault (.signature "bool" v.typeName)
  | operands => Eval.fault (.arity "3" operands.length)

/-- Evaluates a body; the value of its last term counts. -/
def evaluateBody (scope : Scope) (body : List Code) : Eval Value := do
  r.evaluate (← r.evaluateLeading scope body) scope

/-- Evaluates a body in a new scope with local bindings. -/
def letForm (scope : Scope) : List Code → Eval Value
  | [] => Eval.fault (.shape .bindingListSyntax none)
  | head :: body =>
    match Recursion.bindingList? head with
    | none => Eval.fault (.shape .bindingListSyntax none)
    | some elements => do
      let pairs ← Eval.ofExcept (Recursion.bindingPairs elements)
      if body.isEmpty then Eval.fault (.shape .letBodyMissing (some head.position))
      else
        let inner ← Eval.childScope scope
        r.bindInTurn inner pairs
        evaluateBody r inner body

/-- Evaluates terms in turn. -/
def beginForm (scope : Scope) (body : List Code) : Eval Value :=
  if body.isEmpty then pure .nil else evaluateBody r scope body

/-! ## Quotation, faults and files -/

/-- Quotation in the long spelling; `pos` is the place of the form. -/
def markedForm (scope : Scope) (pos : Position) (operands : List Code) : Marker → Eval Value
  | .quote => do return (← Eval.ofExcept (Recursion.single operands)).toValue
  | .quasiquote => do r.quasiquote scope 0 (← Eval.ofExcept (Recursion.single operands))
  | .unquote => Eval.fault (.strayUnquote pos)

/-- Evaluates a term with a handler for its fault. -/
def attemptForm (scope : Scope) : List Code → Eval Value
  | [body, handlerTerm] => do
    let handler ← r.evaluate handlerTerm scope
    if handler.isProcedure then
      Recursion.catching (r.evaluate body scope) fun f => do
        Eval.trace fun _ => "Caught " ++ f.message
        r.apply handler [f.toValue (← Eval.freshStamp)]
    else Eval.fault (.notCallable handler (some handlerTerm.position))
  | operands => Eval.fault (.arity "2" operands.length)

/-- Imports the file a term names. -/
def importForm (scope : Scope) (operands : List Code) : Eval Value := do
  let t ← Eval.ofExcept (Recursion.single operands)
  let file ← Eval.ofExcept (← r.evaluate t scope).asString
  r.importFile file
  return .nil

/-- The special form of a keyword; `pos` is the place of the form. -/
def specialForm (scope : Scope) (pos : Position) (operands : List Code) : Keyword → Eval Value
  | .define => defineForm r scope operands
  | .lambda => lambdaForm scope operands
  | .cond => condForm r scope operands
  | .branch => branchForm r scope operands
  | .letIn => letForm r scope operands
  | .begin => beginForm r scope operands
  | .marked m => markedForm r scope pos operands m
  | .defineStruct => structForm scope operands
  | .defineTemplate => templateForm scope operands
  | .defineRule => ruleForm scope operands
  | .assign => assignForm r scope operands
  | .attempt => attemptForm r scope operands
  | .load => importForm r scope operands

/-! ## Calls -/

/-- Evaluates the body of a closure with its parameters bound. -/
def callClosure (c : Closure Value) (args : List Value) : Eval Value :=
  if args.length = c.params.length then do
    let inner ← Eval.childScope c.scope
    Recursion.bindParams inner (c.params.zip args)
    evaluateBody r inner c.body
  else Eval.fault (.arity (Nat.repr c.params.length) args.length)

/-- Calls a procedure from a scope; `pos` is where its name stands, if anywhere. -/
def call (scope : Scope) (pos : Option Position) (f : Value) (args : List Value) : Eval Value :=
  match f with
  | .builtin b => b.call r args scope
  | .closure _ c => callClosure r c args
  | v => Eval.fault (.notCallable v pos)

/-- Evaluates a term in a scope. -/
def evaluateTerm (t : Code) (scope : Scope) : Eval Value :=
  match t with
  | .list pos [] => Eval.fault (.shape .noFunction (some pos))
  | .list pos (head :: operands) =>
    match head.symbol?.bind Keyword.ofName? with
    | some keyword => specialForm r scope pos operands keyword
    | none => do
      match ← Recursion.expander? scope head with
      | some (name, transformer) =>
        let expansion ← Expansion.expand r name transformer operands
        Eval.trace fun _ => "Expanded " ++ name ++ ": " ++ expansion.source
        r.evaluate expansion scope
      | none =>
        let f ← r.evaluate head scope
        let args ← r.evaluateAll scope operands
        call r scope (some head.position) f args
  | t => r.evaluateAtom scope t

mutual

/-- Evaluates a term in a scope, with recursion of at most the given depth. -/
def evaluate : Nat → Code → Scope → Eval Value
  | 0, _, _ => throw .outOfFuel
  | n + 1, t, scope => evaluateTerm ⟨evaluate n, apply n⟩ t scope

/-- Applies a procedure to values, with recursion of at most the given depth. -/
def apply : Nat → Value → List Value → Eval Value
  | 0, _, _ => throw .outOfFuel
  | n + 1, f, args => call ⟨evaluate n, apply n⟩ .global none f args

end

end Direct

/-! ## Settling a step -/

/-- Settles a step: a value stays, and a term in tail position is evaluated. -/
def Step.settle (r : Recursion) : Step → Eval Value
  | .done v => pure v
  | .tail t scope => r.evaluate t scope

variable {r : Recursion}

@[simp] theorem Step.settle_done (v : Value) : Step.settle r (.done v) = pure v := rfl

/-- What a step leaves to do is done by evaluating it. -/
@[simp] theorem Step.settle_tail (t : Code) (scope : Scope) : Step.settle r (.tail t scope) = r.evaluate t scope := rfl

@[simp] theorem Eval.fault_bind {α β : Type} (f : Fault) (k : α → Eval β) : (Eval.fault f >>= k) = Eval.fault f := rfl

namespace Direct

variable (r)

theorem lambdaForm_settle (scope : Scope) (operands : List Code) :
    Recursion.lambdaForm scope operands >>= Step.settle r = lambdaForm scope operands := by
  fun_cases lambdaForm scope operands with
  | case1 pos params body hb => simp [Recursion.lambdaForm, hb]
  | case2 pos params body hb => simp [Recursion.lambdaForm, hb]
  | case3 operands _ => simp [Recursion.lambdaForm]

theorem defineProcedure_settle (scope : Scope) (pos : Position) (pattern body : List Code) :
    Recursion.defineProcedure scope pos pattern body >>= Step.settle r = defineProcedure scope pos pattern body := by
  fun_cases defineProcedure scope pos pattern body with
  | case1 => rfl
  | case2 head params hb => simp [Recursion.defineProcedure, hb]
  | case3 params hb pos name => simp [Recursion.defineProcedure, hb]
  | case4 params hb head _ => simp [Recursion.defineProcedure, hb]

theorem defineForm_settle (scope : Scope) (operands : List Code) :
    r.defineForm scope operands >>= Step.settle r = defineForm r scope operands := by
  fun_cases defineForm r scope operands with
  | case1 => rfl
  | case2 pos pattern body => exact defineProcedure_settle r scope pos pattern body
  | case3 pos name term => simp [Recursion.defineForm]
  | case4 pos name rest _ => simp [Recursion.defineForm]
  | case5 t rest _ _ _ => simp [Recursion.defineForm]

theorem assignForm_settle (scope : Scope) (operands : List Code) :
    r.assignForm scope operands >>= Step.settle r = assignForm r scope operands := by
  fun_cases assignForm r scope operands with
  | case1 pos name term hn => simp [Recursion.assignForm, hn]
  | case2 pos name term hn => simp [Recursion.assignForm, hn]
  | case3 t u _ => simp [Recursion.assignForm]
  | case4 _ _ => simp [Recursion.assignForm]

theorem structForm_settle (scope : Scope) (operands : List Code) :
    Recursion.structForm scope operands >>= Step.settle r = structForm scope operands := by
  fun_cases structForm scope operands with
  | case1 pos name pos' elements hf => simp [Recursion.structForm, hf]
  | case2 pos name pos' elements fields hf => simp [Recursion.structForm, hf]
  | case3 operands _ => simp [Recursion.structForm]

theorem templateForm_settle (scope : Scope) (operands : List Code) :
    Recursion.templateForm scope operands >>= Step.settle r = templateForm scope operands := by
  simp [Recursion.templateForm, templateForm]

theorem ruleForm_settle (scope : Scope) (operands : List Code) :
    Recursion.ruleForm scope operands >>= Step.settle r = ruleForm scope operands := by
  simp [Recursion.ruleForm, ruleForm]

/-- Going through the clauses, both evaluators come to the same consequent. -/
theorem condForm_settle (scope : Scope) (clauses : List Code) :
    r.condForm scope clauses >>= Step.settle r = condForm r scope clauses := by
  fun_induction condForm r scope clauses with
  | case1 => rfl
  | case2 pos condition consequent clauses helse => simp [Recursion.condForm, helse]
  | case3 pos condition consequent clauses helse ih =>
    rw [Recursion.condForm, if_neg helse, bind_assoc]
    refine bind_congr fun v => ?_
    rw [← ih]
    cases v with
    | boolean b => cases b <;> rfl
    | _ => rfl
  | case4 pos elements clauses _ => simp [Recursion.condForm]
  | case5 t clauses _ _ => simp [Recursion.condForm]

theorem branchForm_settle (scope : Scope) (operands : List Code) :
    r.branchForm scope operands >>= Step.settle r = branchForm r scope operands := by
  fun_cases branchForm r scope operands with
  | case1 condition consequent alternative =>
    rw [Recursion.branchForm, bind_assoc]
    refine bind_congr fun v => ?_
    cases v with
    | boolean b => cases b <;> rfl
    | _ => rfl
  | case2 operands _ => simp [Recursion.branchForm]

/-- Both evaluate the body in the scope that the bindings have made. -/
theorem letForm_settle (scope : Scope) (operands : List Code) :
    r.letForm scope operands >>= Step.settle r = letForm r scope operands := by
  fun_cases letForm r scope operands with
  | case1 => rfl
  | case2 head body hl => simp [Recursion.letForm, hl]
  | case3 head body elements hl =>
    simp only [Recursion.letForm, hl, bind_assoc]
    refine bind_congr fun pairs => ?_
    split
    · rfl
    · simp [evaluateBody]

theorem beginForm_settle (scope : Scope) (body : List Code) :
    r.beginForm scope body >>= Step.settle r = beginForm r scope body := by
  unfold Recursion.beginForm beginForm
  split
  · rfl
  · simp [evaluateBody]

theorem markedForm_settle (scope : Scope) (pos : Position) (operands : List Code) (m : Marker) :
    r.markedForm scope pos operands m >>= Step.settle r = markedForm r scope pos operands m := by
  cases m with
  | quote => simp [Recursion.markedForm, markedForm]
  | quasiquote => simp [Recursion.markedForm, markedForm]
  | unquote => rfl

/-- A handler is applied in the step itself, so nothing is left to settle. -/
theorem attemptForm_settle (scope : Scope) (operands : List Code) :
    r.attemptForm scope operands >>= Step.settle r = attemptForm r scope operands := by
  fun_cases attemptForm r scope operands with
  | case1 body handlerTerm =>
    rw [Recursion.attemptForm, bind_assoc]
    refine bind_congr fun handler => ?_
    split
    · simp
    · rfl
  | case2 operands _ => simp [Recursion.attemptForm]

theorem importForm_settle (scope : Scope) (operands : List Code) :
    r.importForm scope operands >>= Step.settle r = importForm r scope operands := by
  simp [Recursion.importForm, importForm]

/-- A special form that is settled is the form evaluated by plain recursion. -/
theorem specialForm_settle (scope : Scope) (pos : Position) (operands : List Code) (keyword : Keyword) :
    r.specialForm scope pos operands keyword >>= Step.settle r = specialForm r scope pos operands keyword := by
  cases keyword with
  | define => exact defineForm_settle r scope operands
  | lambda => exact lambdaForm_settle r scope operands
  | cond => exact condForm_settle r scope operands
  | branch => exact branchForm_settle r scope operands
  | letIn => exact letForm_settle r scope operands
  | begin => exact beginForm_settle r scope operands
  | marked m => exact markedForm_settle r scope pos operands m
  | defineStruct => exact structForm_settle r scope operands
  | defineTemplate => exact templateForm_settle r scope operands
  | defineRule => exact ruleForm_settle r scope operands
  | assign => exact assignForm_settle r scope operands
  | attempt => exact attemptForm_settle r scope operands
  | load => exact importForm_settle r scope operands

/-- Entering a closure and evaluating what is left of its body. -/
theorem enter_settle (c : Closure Value) (args : List Value) :
    (r.enter c args >>= fun (last, inner) => r.evaluate last inner) = callClosure r c args := by
  unfold Recursion.enter Recursion.bindArguments callClosure
  split
  · simp [evaluateBody]
  · rfl

/-- A call of a closure leaves its body to evaluate, and a macro call its expansion. -/
theorem callForm_settle (scope : Scope) (head : Code) (operands : List Code) :
    r.callForm scope head operands >>= Step.settle r =
      (do
        let f ← r.evaluate head scope
        let args ← r.evaluateAll scope operands
        call r scope (some head.position) f args) := by
  simp only [Recursion.callForm, bind_assoc]
  refine bind_congr fun f => bind_congr fun args => ?_
  cases f with
  | builtin b => simp [call]
  | closure stamp c => simp [call, ← enter_settle]
  | _ => rfl

/-- One step that is settled evaluates the term by plain recursion. -/
theorem step_settle (t : Code) (scope : Scope) :
    r.step t scope >>= Step.settle r = evaluateTerm r t scope := by
  fun_cases evaluateTerm r t scope with
  | case1 pos => rfl
  | case2 pos head operands keyword hk =>
    simp only [Recursion.step, hk]
    exact specialForm_settle r scope pos operands keyword
  | case3 pos head operands hk =>
    simp only [Recursion.step, hk, bind_assoc]
    -- A macro call goes on with its expansion, any other call with the body of the procedure.
    refine bind_congr fun found => ?_
    cases found with
    | some found => simp
    | none => exact callForm_settle r scope head operands
  | case4 t _ _ => simp [Recursion.step]

theorem applyValue_eq_call (f : Value) (args : List Value) :
    r.applyValue f args = call r .global none f args := by
  cases f with
  | closure stamp c => exact enter_settle r c args
  | _ => rfl

end Direct

/-! ## The two evaluators agree -/

/-- With one step more the loop does what plain recursion does with the loop below it. -/
theorem evaluate_succ (n : Nat) (t : Code) (scope : Scope) :
    evaluate (n + 1) t scope = Direct.evaluateTerm ⟨evaluate n, apply n⟩ t scope := by
  rw [← Direct.step_settle, evaluate]
  refine bind_congr fun s => ?_
  cases s <;> rfl

theorem apply_succ (n : Nat) (f : Value) (args : List Value) :
    apply (n + 1) f args = Direct.call ⟨evaluate n, apply n⟩ .global none f args := by
  rw [← Direct.applyValue_eq_call]
  rfl

/-! ## Names -/

theorem Eval.lookup_of_some {scope : Scope} {s : Store} {name : String} {v : Value}
    (h : s.frames.lookup? scope name = some v) (pos : Position) : Eval.lookup scope name pos s = .ok v s := by
  have hget : (get : Eval Store) s = .ok s s := rfl
  rw [Eval.lookup, EStateM.bind_of_ok hget, h]
  rfl

/-- A symbol that is bound evaluates to what it is bound to, and changes nothing. -/
theorem evaluate_symbol {n : Nat} {scope : Scope} {s : Store} {name : String} {v : Value}
    (h : s.frames.lookup? scope name = some v) (pos : Position) :
    evaluate (n + 1) (.symbol pos name) scope s = .ok v s := by
  rw [evaluate_succ]
  exact Eval.lookup_of_some h pos

theorem expander?_builtin {scope : Scope} {s : Store} {name : String} {b : Builtin}
    (h : s.frames.lookup? scope name = some (.builtin b)) (pos : Position) :
    Recursion.expander? scope (.symbol pos name) s = .ok none s := by
  have hlookup : Eval.lookup? scope name s = .ok (some (.builtin b)) s := congrArg (EStateM.Result.ok · s) h
  exact EStateM.bind_of_ok hlookup _

/-- Going round the loop and plain recursion do the same, whatever depth is allowed. -/
theorem recursion_eq_direct (n : Nat) :
    (⟨evaluate n, apply n⟩ : Recursion) = ⟨Direct.evaluate n, Direct.apply n⟩ := by
  induction n with
  | zero => rfl
  | succ n ih =>
    congr 1
    · funext t scope
      rw [evaluate_succ, ih, Direct.evaluate]
    · funext f args
      rw [apply_succ, ih, Direct.apply]

/-! ## Applying is calling -/

/-- The call of a procedure with arguments, all of them finished values. -/
def callTerm (pos p : Position) (f : Value) (args : List Value) : Code :=
  .list pos (.embedded p f :: args.map (.embedded p))

/-- What a run ends with, without the place of a fault. -/
def Eval.placeless {α : Type} : EStateM.Result Signal Store α → EStateM.Result Signal Store α
  | .error (.fault f) s => .error (.fault { f with position := none }) s
  | other => other

/-- A value in the place of a term evaluates to itself. -/
theorem evaluate_embedded (n : Nat) (p : Position) (v : Value) (scope : Scope) :
    evaluate (n + 1) (.embedded p v) scope = pure v := by
  rw [evaluate_succ]
  rfl

theorem evaluateAll_embedded (n : Nat) (p : Position) (vs : List Value) (scope : Scope) :
    Recursion.evaluateAll ⟨evaluate (n + 1), apply (n + 1)⟩ scope (vs.map (.embedded p)) = pure vs := by
  induction vs with
  | nil => rfl
  | cons v vs ih => simp [Recursion.evaluateAll, evaluate_embedded, ih]

/-- Evaluating a call of finished values calls the procedure from the global scope. -/
theorem evaluate_callTerm (n : Nat) (pos p : Position) (f : Value) (args : List Value) :
    evaluate (n + 2) (callTerm pos p f args) .global =
      Direct.call ⟨evaluate (n + 1), apply (n + 1)⟩ .global (some p) f args := by
  rw [evaluate_succ]
  simp [callTerm, Direct.evaluateTerm, Term.symbol?, Recursion.expander?, evaluate_embedded, evaluateAll_embedded,
    Term.position]

theorem placeless_call (r : Recursion) (scope : Scope) (pos pos' : Option Position) (f : Value)
    (args : List Value) (s : Store) :
    Eval.placeless (Direct.call r scope pos f args s) = Eval.placeless (Direct.call r scope pos' f args s) := by
  cases f <;> rfl

theorem placeless_apply (n : Nat) (pos p : Position) (f : Value) (args : List Value) (s : Store) :
    Eval.placeless (apply (n + 2) f args s) = Eval.placeless (evaluate (n + 2) (callTerm pos p f args) .global s) := by
  rw [apply_succ, evaluate_callTerm]
  exact placeless_call _ _ _ _ _ _ _

theorem two_le_fuel : 2 ≤ fuel := by decide

/-- The evaluator that loops on tail positions has every outcome the plainly recursive one has and no
other: value or signal, and the store with it, for every number of steps allowed. Applying a procedure is evaluating its
call in the global scope, up to the place of a fault. -/
theorem evaluate_eq_direct (t : Code) (scope : Scope) (f : Value) (args : List Value) (pos p : Position) (s : Store) :
    (∀ n, evaluate n t scope s = Direct.evaluate n t scope s) ∧
      (∀ n, Eval.placeless (apply (n + 2) f args s) =
        Eval.placeless (evaluate (n + 2) (callTerm pos p f args) .global s)) ∧
      Eval.placeless (Interpreter.apply f args s) =
        Eval.placeless (evaluator.evaluate (callTerm pos p f args) .global s) := by
  refine ⟨fun n => ?_, fun n => placeless_apply n pos p f args s, ?_⟩
  · have h := congrArg Recursion.evaluate (recursion_eq_direct n)
    exact congrFun (congrFun (congrFun h t) scope) s
  · obtain ⟨n, hn⟩ := Nat.exists_eq_add_of_le' two_le_fuel
    show Eval.placeless (apply fuel f args s) = Eval.placeless (evaluate fuel (callTerm pos p f args) .global s)
    rw [hn]
    exact placeless_apply n pos p f args s

end Lisplet
