import Lisplet.Proofs.Evaluation.Running
/-!
# The calling scope is seen in calls only

The store holds the scope that the running built-in procedure was called from. Only such a procedure looks at it, to expand
a macro call that is given as data, and it always runs with a calling scope of its own (`CallerBlind.withCaller`). So what a
term does is the same whichever scope the store holds, and it leaves that scope alone (`callerBlind_evaluate`). To evaluate in
a call is to evaluate (`CallerBlind.withCaller_eq`).
-/
namespace Lisplet

namespace Eval

variable {α β : Type}

/-- The same end with another calling scope. -/
def recalled (scope : Scope) : EStateM.Result Signal Store α → EStateM.Result Signal Store α
  | .ok a s => .ok a { s with caller := scope }
  | .error e s => .error e { s with caller := scope }

/-- An action that does the same whichever scope calls, and leaves the calling scope alone. -/
def CallerBlind (act : Eval α) : Prop := ∀ s scope, act { s with caller := scope } = recalled scope (act s)

namespace CallerBlind

/-- An action that does not see who calls does the same in a call. -/
theorem withCaller_eq {act : Eval α} (h : CallerBlind act) (scope : Scope) : Eval.withCaller scope act = act := by
  funext s
  have hself : act s = recalled s.caller (act s) := h s s.caller
  rw [hself, Eval.withCaller, h s scope]
  cases act s <;> rfl

/-! ## Actions in turn -/

theorem pure (a : α) : CallerBlind (pure a : Eval α) := fun _ _ => rfl

theorem throw (e : Signal) : CallerBlind (throw e : Eval α) := fun _ _ => rfl

theorem fault (f : Fault) : CallerBlind (Eval.fault f : Eval α) := throw _

/-- Actions in turn do not see who calls if neither does, since the first leaves the calling scope as it was. -/
theorem bind {act : Eval α} {f : α → Eval β} (h : CallerBlind act) (hf : ∀ a, CallerBlind (f a)) :
    CallerBlind (act >>= f) := by
  intro s scope
  have hact := h s scope
  cases hs : act s with
  | ok a m =>
    rw [hs] at hact
    rw [EStateM.bind_of_ok hs, EStateM.bind_of_ok hact, hf a m scope]
  | error e m =>
    rw [hs] at hact
    rw [EStateM.bind_of_error hs, EStateM.bind_of_error hact]
    rfl

/-- An action that looks at the store, but not at who calls. -/
theorem reads {f : Store → Eval α} (hf : ∀ s, CallerBlind (f s)) (h : ∀ s scope, f { s with caller := scope } = f s) :
    CallerBlind (get >>= f) := by
  intro s scope
  show f { s with caller := scope } { s with caller := scope } = recalled scope (f s s)
  rw [h, hf s s scope]

theorem ofExcept (x : Except Fault α) : CallerBlind (Eval.ofExcept x) := by
  cases x with
  | ok a => exact pure a
  | error f => exact fault f

theorem answer (q : Question) (a : Option α) : CallerBlind (Eval.answer q a) := by
  cases a with
  | some a => exact pure a
  | none => exact throw _

theorem ite {p : Prop} [Decidable p] {act other : Eval α} (h : CallerBlind act) (h' : CallerBlind other) :
    CallerBlind (if p then act else other) := by
  split
  · exact h
  · exact h'

/-! ## Primitives -/

/-- The stamps that are handed out are counted apart from the calling scope. -/
theorem freshStamp : CallerBlind Eval.freshStamp := fun _ _ => rfl

theorem lookup? (scope : Scope) (name : String) : CallerBlind (Eval.lookup? scope name) := fun _ _ => rfl

/-- A name is looked up in a scope that is given, not in the one that calls. -/
theorem lookup (scope : Scope) (name : String) (pos : Position) : CallerBlind (Eval.lookup scope name pos) := by
  refine reads (fun s => ?_) fun _ _ => rfl
  split
  · exact pure _
  · exact fault _

theorem define (scope : Scope) (name : String) (v : Value) : CallerBlind (Eval.define scope name v) :=
  ite (fault _) fun _ _ => rfl

theorem assign (scope : Scope) (name : String) (v : Value) : CallerBlind (Eval.assign scope name v) := by
  have howner : CallerBlind (Eval.owner? scope name) := fun _ _ => rfl
  refine bind howner fun frame => ?_
  split
  · exact fun _ _ => rfl
  · exact fault _

theorem childScope (scope : Scope) : CallerBlind (Eval.childScope scope) := fun _ _ => rfl

/-- The line of the trace does not say who calls. -/
theorem trace (message : Unit → String) : CallerBlind (Eval.trace message) := by
  intro s scope
  rw [Eval.trace_apply, Eval.trace_apply]
  cases hs : s.tracing <;> simp [recalled, hs]

theorem readFile (path : String) : CallerBlind (Eval.readFile path) := by
  refine reads (fun s => bind (answer _ _) fun text => ?_) fun _ _ => rfl
  split
  · exact pure _
  · exact fault _

/-- A call sees its own calling scope, so it does not matter which one it takes the place of. -/
theorem withCaller (scope : Scope) (act : Eval α) : CallerBlind (Eval.withCaller scope act) := by
  intro s other
  simp only [Eval.withCaller]
  cases act { s with caller := scope } <;> rfl

/-- The directory and the imports in progress are put back, and the calling scope is not theirs to change. -/
theorem withImport (path : String) {act : Eval α} (h : CallerBlind act) : CallerBlind (Eval.withImport path act) := by
  intro s scope
  have hact := h { s with directory := Path.parent path, importing := path :: s.importing } scope
  simp only [Eval.withImport] at hact ⊢
  rw [hact]
  cases act { s with directory := Path.parent path, importing := path :: s.importing } <;> rfl

/-- A handler starts from a store with the same calling scope as the body did. -/
theorem catching {body : Eval Value} {handle : Fault → Eval Value} (h : CallerBlind body)
    (hh : ∀ f, CallerBlind (handle f)) : CallerBlind (Recursion.catching body handle) := by
  intro s scope
  unfold Recursion.catching
  rw [h s scope]
  cases body s with
  | ok v m => rfl
  | error e m =>
    cases e with
    | fault f => exact hh f m scope
    | _ => rfl

end CallerBlind

end Eval

open Eval (CallerBlind)

/-- A recursion whose operations do not see who calls. -/
structure Recursion.CallerBlind (r : Recursion) : Prop where
  evaluate : ∀ t scope, Eval.CallerBlind (r.evaluate t scope)
  apply : ∀ f args, Eval.CallerBlind (r.apply f args)

/-- What is evaluated in turn does not see who calls. -/
theorem Recursion.CallerBlind.relatedIn {r : Recursion} (h : r.CallerBlind) (scope : Scope) :
    Recursion.RelatedIn (fun _ act _ => Eval.CallerBlind act) scope r r where
  pure := .pure
  bind := .bind
  evaluate t := h.evaluate t scope
  define := .define scope

/-! ## What runs by itself -/

theorem callerBlind_bindOperands (scope : Scope) (pairs : List (String × Code)) :
    CallerBlind (Expansion.bindOperands scope pairs) := by
  fun_induction Expansion.bindOperands scope pairs with
  | case1 => exact .pure _
  | case2 param operand rest ih => exact .bind (.define scope param _) fun _ => ih

theorem callerBlind_bindParams (scope : Scope) (pairs : List (String × Value)) :
    CallerBlind (Recursion.bindParams scope pairs) := by
  fun_induction Recursion.bindParams scope pairs with
  | case1 => exact .pure _
  | case2 name v rest ih => exact .bind (.define scope name v) fun _ => ih

theorem callerBlind_makeClosure (name : Option String) (params body : List Code) (scope : Scope) :
    CallerBlind (Recursion.makeClosure name params body scope) :=
  .bind (.ofExcept _) fun _ => .bind .freshStamp fun _ => .pure _

theorem callerBlind_lambdaForm (scope : Scope) (operands : List Code) : CallerBlind (Direct.lambdaForm scope operands) := by
  unfold Direct.lambdaForm
  split
  · exact .ite (.fault _) (callerBlind_makeClosure _ _ _ _)
  · exact .fault _

theorem callerBlind_named (name : String) (v : Value) : CallerBlind (Recursion.named name v) := by
  unfold Recursion.named
  split
  · exact .bind .freshStamp fun _ => .pure _
  · exact .pure _

theorem callerBlind_defineProcedure (scope : Scope) (pos : Position) (pattern body : List Code) :
    CallerBlind (Direct.defineProcedure scope pos pattern body) := by
  unfold Direct.defineProcedure
  split
  · exact .fault _
  · refine .ite (.fault _) ?_
    split
    · exact .bind (callerBlind_makeClosure _ _ _ _) fun _ => .bind (.define scope _ _) fun _ => .bind (.trace _) fun _ =>
        .pure _
    · exact .fault _

theorem callerBlind_defineBuiltins (scope : Scope) (bs : List Builtin) :
    CallerBlind (Recursion.defineBuiltins scope bs) := by
  fun_induction Recursion.defineBuiltins scope bs with
  | case1 => exact .pure _
  | case2 b bs ih => exact .bind (.define scope _ _) fun _ => ih

/-- A type is registered whoever defines it. -/
theorem callerBlind_registerStruct (name : String) (fields : List String) :
    CallerBlind (Recursion.registerStruct name fields) := by
  intro s scope
  simp only [Recursion.registerStruct]
  cases s.registry.register name fields <;> rfl

theorem callerBlind_structForm (scope : Scope) (operands : List Code) : CallerBlind (Direct.structForm scope operands) := by
  unfold Direct.structForm
  split
  · split
    · exact .fault _
    · exact .bind (callerBlind_registerStruct _ _) fun _ => .bind (.define scope _ _) fun _ =>
        .bind (callerBlind_defineBuiltins scope _) fun _ => .bind (.trace _) fun _ => .pure _
  · exact .fault _

theorem callerBlind_templateForm (scope : Scope) (operands : List Code) :
    CallerBlind (Direct.templateForm scope operands) :=
  .bind (.ofExcept _) fun _ => .bind (.ofExcept _) fun _ => .bind .freshStamp fun _ =>
    .bind (.define scope _ _) fun _ => .bind (.trace _) fun _ => .pure _

theorem callerBlind_ruleForm (scope : Scope) (operands : List Code) : CallerBlind (Direct.ruleForm scope operands) :=
  .bind (.ofExcept _) fun _ => .bind .freshStamp fun _ => .bind (.define scope _ _) fun _ =>
    .bind (.trace _) fun _ => .pure _

/-- Whether a head is a macro is asked in the scope of the term. -/
theorem callerBlind_expander? (scope : Scope) (head : Code) : CallerBlind (Recursion.expander? scope head) := by
  unfold Recursion.expander?
  split
  · exact .pure _
  · refine .bind (.lookup? scope _) fun v => ?_
    split
    · exact .pure _
    · exact .pure _

/-! ## What goes on with a recursion -/

section Parts

variable {r : Recursion} (h : r.CallerBlind) (scope : Scope)
include h

omit scope in
/-- A template macro opens a scope inside the one that it was defined in, and not in the one that calls. -/
theorem callerBlind_expand (name : String) (t : Transformer Value) (operands : List Code) :
    CallerBlind (Expansion.expand r name t operands) := by
  unfold Expansion.expand
  split
  next params body scope =>
    unfold Expansion.expandTemplate
    refine .ite (.bind (.childScope scope) fun inner => .bind (callerBlind_bindOperands inner _) fun _ => ?_) (.fault _)
    split
    · exact (h.relatedIn inner).fill _ 0 _
    · exact .bind (h.evaluate _ inner) fun _ => .pure _
  next => exact .ofExcept _

/-! ## Special forms -/

theorem callerBlind_defineForm (operands : List Code) : CallerBlind (Direct.defineForm r scope operands) := by
  unfold Direct.defineForm
  split
  · exact .fault _
  · exact callerBlind_defineProcedure scope _ _ _
  · exact .bind (h.evaluate _ scope) fun _ => .bind (callerBlind_named _ _) fun _ => .bind (.define scope _ _) fun _ =>
      .bind (.trace _) fun _ => .pure _
  · exact .fault _
  · exact .fault _

theorem callerBlind_assignForm (operands : List Code) : CallerBlind (Direct.assignForm r scope operands) := by
  unfold Direct.assignForm
  split
  · exact .ite (.fault _) (.bind (h.evaluate _ scope) fun v => .bind (.assign scope _ v) fun _ => .pure _)
  · exact .fault _
  · exact .fault _

theorem callerBlind_condForm (clauses : List Code) : CallerBlind (Direct.condForm r scope clauses) := by
  fun_induction Direct.condForm r scope clauses with
  | case1 => exact .pure _
  | case2 pos condition consequent => exact h.evaluate consequent scope
  | case3 pos condition consequent clauses _ ih =>
    refine .bind (h.evaluate condition scope) fun v => ?_
    split
    · exact h.evaluate consequent scope
    · exact ih
    · exact .fault _
  | case4 => exact .fault _
  | case5 => exact .fault _

theorem callerBlind_branchForm (operands : List Code) : CallerBlind (Direct.branchForm r scope operands) := by
  unfold Direct.branchForm
  split
  · refine .bind (h.evaluate _ scope) fun v => ?_
    split
    · exact h.evaluate _ scope
    · exact h.evaluate _ scope
    · exact .fault _
  · exact .fault _

theorem callerBlind_evaluateBody (body : List Code) : CallerBlind (Direct.evaluateBody r scope body) :=
  .bind ((h.relatedIn scope).evaluateLeading body) fun last => h.evaluate last scope

/-- The scope of a `let` is opened in the scope of the form. -/
theorem callerBlind_letForm (operands : List Code) : CallerBlind (Direct.letForm r scope operands) := by
  unfold Direct.letForm
  split
  · exact .fault _
  · split
    · exact .fault _
    · exact .bind (.ofExcept _) fun pairs => .ite (.fault _) (.bind (.childScope scope) fun inner =>
        .bind ((h.relatedIn inner).bindInTurn pairs) fun _ => callerBlind_evaluateBody h inner _)

theorem callerBlind_markedForm (pos : Position) (operands : List Code) (m : Marker) :
    CallerBlind (Direct.markedForm r scope pos operands m) := by
  cases m with
  | quote => exact .bind (.ofExcept _) fun _ => .pure _
  | quasiquote => exact .bind (.ofExcept _) fun t => (h.relatedIn scope).quasiquote 0 t
  | unquote => exact .fault _

/-- The body and the handler are evaluated in the scope of the form. -/
theorem callerBlind_attemptForm (operands : List Code) : CallerBlind (Direct.attemptForm r scope operands) := by
  unfold Direct.attemptForm
  split
  · refine .bind (h.evaluate _ scope) fun handler => .ite ?_ (.fault _)
    exact .catching (h.evaluate _ scope) fun f =>
      .bind (.trace _) fun _ => .bind .freshStamp fun _ => h.apply handler _
  · exact .fault _

theorem callerBlind_evaluateSource (source : String) : CallerBlind (r.evaluateSource scope source) :=
  .bind (.ofExcept _) fun forms => (h.relatedIn scope).evaluateForms forms

omit scope in
/-- A file is evaluated in the global scope, whoever imports it. -/
theorem callerBlind_importFile (file : String) : CallerBlind (r.importFile file) := by
  refine .reads (fun s => .ite (.trace _) ?_) fun _ _ => rfl
  refine .bind (.readFile _) fun text => .bind (.trace _) fun _ => .bind (.withImport _ ?_) fun _ => .pure _
  exact callerBlind_evaluateSource h .global text

theorem callerBlind_importForm (operands : List Code) : CallerBlind (Direct.importForm r scope operands) :=
  .bind (.ofExcept _) fun t => .bind (h.evaluate t scope) fun _ => .bind (.ofExcept _) fun file =>
    .bind (callerBlind_importFile h file) fun _ => .pure _

theorem callerBlind_specialForm (pos : Position) (operands : List Code) (keyword : Keyword) :
    CallerBlind (Direct.specialForm r scope pos operands keyword) := by
  cases keyword with
  | define => exact callerBlind_defineForm h scope operands
  | lambda => exact callerBlind_lambdaForm scope operands
  | cond => exact callerBlind_condForm h scope operands
  | branch => exact callerBlind_branchForm h scope operands
  | letIn => exact callerBlind_letForm h scope operands
  | begin => exact .ite (.pure _) (callerBlind_evaluateBody h scope operands)
  | marked m => exact callerBlind_markedForm h scope pos operands m
  | defineStruct => exact callerBlind_structForm scope operands
  | defineTemplate => exact callerBlind_templateForm scope operands
  | defineRule => exact callerBlind_ruleForm scope operands
  | assign => exact callerBlind_assignForm h scope operands
  | attempt => exact callerBlind_attemptForm h scope operands
  | load => exact callerBlind_importForm h scope operands

/-! ## Calls -/

/-- A built-in procedure is told by the call itself who calls, whatever the store holds. -/
theorem callerBlind_call (pos : Option Position) (f : Value) (args : List Value) :
    CallerBlind (Direct.call r scope pos f args) := by
  unfold Direct.call
  split
  · exact .ite (.withCaller scope _) (.fault _)
  · exact .ite (.bind (.childScope _) fun inner => .bind (callerBlind_bindParams inner _) fun _ =>
      callerBlind_evaluateBody h inner _) (.fault _)
  · exact .fault _

theorem callerBlind_evaluateAtom (t : Code) : CallerBlind (r.evaluateAtom scope t) := by
  unfold Recursion.evaluateAtom
  split
  · exact .lookup scope _ _
  · exact .pure _
  · exact (h.relatedIn scope).quasiquote 0 _
  · exact .fault _
  · exact .bind ((h.relatedIn scope).formatParts _) fun _ => .pure _
  · exact .pure _

/-- No step of evaluating a term reads the calling scope. -/
theorem callerBlind_evaluateTerm (t : Code) : CallerBlind (Direct.evaluateTerm r t scope) := by
  unfold Direct.evaluateTerm
  split
  · exact .fault _
  · split
    · exact callerBlind_specialForm h scope _ _ _
    · refine .bind (callerBlind_expander? scope _) fun found => ?_
      split
      · exact .bind (callerBlind_expand h _ _ _) fun _ => .bind (.trace _) fun _ => h.evaluate _ scope
      · exact .bind (h.evaluate _ scope) fun f => .bind ((h.relatedIn scope).evaluateAll _) fun args =>
          callerBlind_call h scope _ f args
  · exact callerBlind_evaluateAtom h scope _

end Parts

/-- Evaluating a term and applying a procedure do not depend on the calling scope the store holds, and leave it as it is, for
every number of steps. -/
theorem callerBlind_evaluate (n : Nat) : Recursion.CallerBlind ⟨evaluate n, apply n⟩ := by
  induction n with
  | zero => exact ⟨fun _ _ => .throw _, fun _ _ => .throw _⟩
  | succ n ih =>
    constructor
    · intro t scope
      show CallerBlind (evaluate (n + 1) t scope)
      rw [evaluate_succ]
      exact callerBlind_evaluateTerm ih scope t
    · intro f args
      show CallerBlind (apply (n + 1) f args)
      rw [apply_succ]
      exact callerBlind_call ih .global none f args

end Lisplet
