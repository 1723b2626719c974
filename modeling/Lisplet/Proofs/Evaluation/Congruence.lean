import Lisplet.Proofs.Evaluation.Running
/-!
# What evaluation passes on

The parts of the evaluator are made of the operations they call back, of actions that run by themselves, and of three ways to
put actions together: one after the other, with a handler for faults, and with another calling scope. A relation between
actions that these respect is a `Congruence`. Two evaluators that call back related operations are then related themselves,
part by part (`related_evaluateTerm`, `related_call`).

Importing a file is the one part that a relation may treat in its own way, since it changes what a run goes on in; so an import
form is left to whoever uses the relation.
-/
namespace Lisplet

/-- A relation between actions that holds of every action that runs by itself, and that evaluation respects. -/
structure Eval.Congruence (R : (α : Type) → Eval α → Eval α → Prop) : Prop where
  same : ∀ {α : Type} (own : Nat) {act : Eval α}, Runs own act → R α act act
  bind : ∀ {α β : Type} {act act' : Eval α} {f f' : α → Eval β}, R α act act' → (∀ a, R β (f a) (f' a)) →
    R β (act >>= f) (act' >>= f')
  catching : ∀ {body body' : Eval Value} {handle handle' : Fault → Eval Value}, R Value body body' →
    (∀ f, R Value (handle f) (handle' f)) → R Value (Recursion.catching body handle) (Recursion.catching body' handle')
  withCaller : ∀ {α : Type} (scope : Scope) {act act' : Eval α}, R α act act' →
    R α (Eval.withCaller scope act) (Eval.withCaller scope act')

/-- Two recursions whose operations are related. -/
structure Recursion.Related (R : (α : Type) → Eval α → Eval α → Prop) (r r' : Recursion) : Prop where
  evaluate : ∀ t scope, R Value (r.evaluate t scope) (r'.evaluate t scope)
  apply : ∀ f args, R Value (r.apply f args) (r'.apply f args)

variable {R : (α : Type) → Eval α → Eval α → Prop}

/-- A test that both make decides for both. -/
theorem related_ite {α : Type} {p : Prop} [Decidable p] {act act' other other' : Eval α} (h : R α act act')
    (h' : R α other other') : R α (if p then act else other) (if p then act' else other') := by
  split
  · exact h
  · exact h'

variable (hR : Eval.Congruence R)

namespace Eval.Congruence

variable {α β : Type}
include hR

theorem pure (a : α) : R α (Pure.pure a) (Pure.pure a) := hR.same 0 (.pure a)

theorem fault (f : Fault) : R α (Eval.fault f) (Eval.fault f) := hR.same 0 (.fault f)

theorem ofExcept (x : Except Fault α) : R α (Eval.ofExcept x) (Eval.ofExcept x) := hR.same 0 (.ofExcept x)

theorem trace (message : Unit → String) : R Unit (Eval.trace message) (Eval.trace message) := hR.same 0 (.trace message)

theorem childScope (scope : Scope) : R Scope (Eval.childScope scope) (Eval.childScope scope) := by
  have hruns : Runs 0 (Eval.childScope scope >>= Pure.pure) := .childScope fun inner => .pure inner
  rw [bind_pure] at hruns
  exact hR.same 0 hruns

end Eval.Congruence

/-- What is evaluated in turn by two related recursions is related. -/
theorem Recursion.Related.relatedIn {r r' : Recursion} (hR : Eval.Congruence R) (h : r.Related R r') (scope : Scope) :
    Recursion.RelatedIn R scope r r' where
  pure := hR.pure
  bind := hR.bind
  evaluate t := h.evaluate t scope
  define name v := hR.same _ (.define scope name v)

/-- The operands of an import form. -/
def importOperands? : Code → Option (List Code)
  | .list _ (head :: operands) => if head.symbol?.bind Keyword.ofName? = some .load then some operands else none
  | _ => none

section Parts

variable {r r' : Recursion} (h : r.Related R r') (scope : Scope)
include hR h

/-- The text is read before either side evaluates, and into the same forms. -/
theorem related_evaluateSource (source : String) :
    R _ (r.evaluateSource scope source) (r'.evaluateSource scope source) :=
  hR.bind (hR.ofExcept _) fun forms => (h.relatedIn hR scope).evaluateForms forms

omit scope in
/-- A rule is matched without any evaluation, and a template is filled or evaluated in a scope of its own. -/
theorem related_expand (name : String) (t : Transformer Value) (operands : List Code) :
    R _ (Expansion.expand r name t operands) (Expansion.expand r' name t operands) := by
  cases t with
  | template params body scope =>
    simp only [Expansion.expand, Expansion.expandTemplate]
    refine related_ite (hR.bind (hR.childScope scope) fun inner =>
      hR.bind (hR.same _ (runs_bindOperands inner _)) fun _ => ?_) (hR.fault _)
    split
    · exact (h.relatedIn hR inner).fill _ 0 _
    · exact hR.bind (h.evaluate _ inner) fun _ => hR.pure _
  | rule pattern template => exact hR.ofExcept _

/-! ## Built-in procedures -/

omit scope in
theorem related_formatPieces (ps : List Format.Piece) :
    R _ (Control.formatPieces r ps) (Control.formatPieces r' ps) := by
  fun_induction Control.formatPieces r ps with
  | case1 => exact hR.pure _
  | case2 raw value ps ih => exact hR.bind ih fun _ => hR.pure _
  | case3 source ps ih =>
    exact hR.bind (hR.ofExcept _) fun t => hR.bind (h.evaluate t .global) fun _ => hR.bind ih fun _ => hR.pure _

omit scope in
theorem related_formatText (template : String) :
    R _ (Control.formatText r template) (Control.formatText r' template) := by
  unfold Control.formatText
  split
  · exact hR.fault _
  · exact hR.bind (related_formatPieces hR h _) fun _ => hR.pure _

omit scope in
/-- The macro of a call that is given as data is looked up in the calling scope, which is the same on both sides. -/
theorem related_expandData (data : Value) : R _ (Control.expandData r data) (Control.expandData r' data) := by
  unfold Control.expandData
  split
  · refine hR.bind (hR.same 0 .get) fun s => ?_
    split
    · exact hR.fault _
    · exact hR.bind (related_expand hR h _ _ _) fun _ => hR.pure _
    · exact hR.fault _
  · exact hR.fault _

omit h scope in
theorem related_times {act act' : Eval Value} (h : R _ act act') (n : Nat) :
    R _ (Control.times n act) (Control.times n act') := by
  induction n with
  | zero => exact hR.pure _
  | succ n ih => exact hR.bind h fun _ => ih

omit scope in
/-- Both check the count and the procedure in the same way before they call it. -/
theorem related_repeatCall (count procedure : Value) :
    R _ (Control.repeatCall r count procedure) (Control.repeatCall r' count procedure) := by
  refine hR.bind (hR.ofExcept _) fun x => ?_
  split
  · exact related_ite (hR.bind (related_times hR (h.apply procedure []) _) fun _ => hR.pure _) (hR.fault _)
  · exact hR.fault _

omit scope in
theorem related_control (op : Control) (args : List Value) : R _ (op.run r args) (op.run r' args) := by
  unfold Control.run
  split
  · exact h.evaluate _ .global
  · exact hR.bind (hR.ofExcept _) fun _ => related_formatText hR h _
  · exact related_expandData hR h _
  · exact related_repeatCall hR h _ _
  · exact hR.same 0 (.throw _)
  · exact hR.bind (hR.ofExcept _) fun _ => hR.same 0 (.throw _)
  · exact hR.bind (hR.ofExcept _) fun _ => hR.bind (hR.same 0 .get) fun _ => related_ite (hR.pure _) (hR.fault _)
  · exact hR.ofExcept _

omit scope in
/-- Procedures that only compute do the same on both sides; the others evaluate or call. -/
theorem related_operation (op : Operation) (args : List Value) : R _ (op.run r args) (op.run r' args) := by
  cases op with
  | arithmetic op => exact hR.bind (hR.same 0 .freshStamp) fun _ => hR.ofExcept _
  | logic op => exact hR.ofExcept _
  | sequence op => exact hR.ofExcept _
  | inspection op => exact hR.ofExcept _
  | errors op => exact hR.bind (hR.same 0 .freshStamp) fun _ => hR.ofExcept _
  | structs op => exact hR.bind (hR.same 0 .freshStamp) fun _ => hR.ofExcept _
  | host op => exact hR.same 0 (runs_host op args)
  | control op => exact related_control hR h op args

omit scope in
theorem related_builtin (b : Builtin) (args : List Value) (scope : Scope) :
    R _ (b.call r args scope) (b.call r' args scope) :=
  related_ite (hR.withCaller scope (related_operation hR h b.operation args)) (hR.fault _)

/-! ## Special forms -/

theorem related_defineForm (operands : List Code) :
    R _ (Direct.defineForm r scope operands) (Direct.defineForm r' scope operands) := by
  unfold Direct.defineForm
  split
  · exact hR.fault _
  · exact hR.same _ (runs_defineProcedure scope _ _ _)
  · exact hR.bind (h.evaluate _ scope) fun _ => hR.same scope.own (.bind (runs_named _ _) fun _ =>
      .bind (.define scope _ _) fun _ => .bind (.trace _) fun _ => .pure _)
  · exact hR.fault _
  · exact hR.fault _

/-- A reserved name is refused before the value is evaluated. -/
theorem related_assignForm (operands : List Code) :
    R _ (Direct.assignForm r scope operands) (Direct.assignForm r' scope operands) := by
  unfold Direct.assignForm
  split
  · split
    case isTrue => exact hR.fault _
    case isFalse hn =>
      exact hR.bind (h.evaluate _ scope) fun v =>
        hR.same 0 (.bind (.assign scope v (by simpa using hn)) fun _ => .pure _)
  · exact hR.fault _
  · exact hR.fault _

/-- The clauses are tried in turn, as the conditions come out. -/
theorem related_condForm (clauses : List Code) :
    R _ (Direct.condForm r scope clauses) (Direct.condForm r' scope clauses) := by
  fun_induction Direct.condForm r scope clauses with
  | case1 => exact hR.pure _
  | case2 pos condition consequent clauses helse =>
    rw [Direct.condForm, if_pos helse]
    exact h.evaluate consequent scope
  | case3 pos condition consequent clauses helse ih =>
    rw [Direct.condForm, if_neg helse]
    refine hR.bind (h.evaluate condition scope) fun v => ?_
    split
    · exact h.evaluate consequent scope
    · exact ih
    · exact hR.fault _
  | case4 pos elements clauses hne =>
    rw [Direct.condForm]
    · exact hR.fault _
    · exact hne
  | case5 t clauses h₁ h₂ =>
    rw [Direct.condForm]
    · exact hR.fault _
    all_goals assumption

theorem related_branchForm (operands : List Code) :
    R _ (Direct.branchForm r scope operands) (Direct.branchForm r' scope operands) := by
  unfold Direct.branchForm
  split
  · refine hR.bind (h.evaluate _ scope) fun v => ?_
    split
    · exact h.evaluate _ scope
    · exact h.evaluate _ scope
    · exact hR.fault _
  · exact hR.fault _

theorem related_evaluateBody (body : List Code) :
    R _ (Direct.evaluateBody r scope body) (Direct.evaluateBody r' scope body) :=
  hR.bind ((h.relatedIn hR scope).evaluateLeading body) fun last => h.evaluate last scope

/-- Each value is evaluated in the scope in which the names in front of it are bound. -/
theorem related_letForm (operands : List Code) :
    R _ (Direct.letForm r scope operands) (Direct.letForm r' scope operands) := by
  unfold Direct.letForm
  split
  · exact hR.fault _
  · split
    · exact hR.fault _
    · exact hR.bind (hR.ofExcept _) fun pairs => related_ite (hR.fault _) (hR.bind (hR.childScope scope) fun inner =>
        hR.bind ((h.relatedIn hR inner).bindInTurn pairs) fun _ => related_evaluateBody hR h inner _)

theorem related_markedForm (pos : Position) (operands : List Code) (m : Marker) :
    R _ (Direct.markedForm r scope pos operands m) (Direct.markedForm r' scope pos operands m) := by
  cases m with
  | quote => exact hR.bind (hR.ofExcept _) fun _ => hR.pure _
  | quasiquote => exact hR.bind (hR.ofExcept _) fun t => (h.relatedIn hR scope).quasiquote 0 t
  | unquote => exact hR.fault _

/-- What is caught on one side is caught on the other, and handled in related ways. -/
theorem related_attemptForm (operands : List Code) :
    R _ (Direct.attemptForm r scope operands) (Direct.attemptForm r' scope operands) := by
  unfold Direct.attemptForm
  split
  · refine hR.bind (h.evaluate _ scope) fun handler => related_ite ?_ (hR.fault _)
    exact hR.catching (h.evaluate _ scope) fun f =>
      hR.bind (hR.trace _) fun _ => hR.bind (hR.same 0 .freshStamp) fun _ => h.apply handler _
  · exact hR.fault _

/-- A special form, if what it is related to imports files as it does. -/
theorem related_specialForm (pos : Position) (operands : List Code) (keyword : Keyword)
    (himport : keyword = .load → R _ (Direct.importForm r scope operands) (Direct.importForm r' scope operands)) :
    R _ (Direct.specialForm r scope pos operands keyword) (Direct.specialForm r' scope pos operands keyword) := by
  cases keyword with
  | define => exact related_defineForm hR h scope operands
  | lambda => exact hR.same scope.own (runs_lambdaForm scope operands)
  | cond => exact related_condForm hR h scope operands
  | branch => exact related_branchForm hR h scope operands
  | letIn => exact related_letForm hR h scope operands
  | begin => exact related_ite (hR.pure _) (related_evaluateBody hR h scope operands)
  | marked m => exact related_markedForm hR h scope pos operands m
  | defineStruct => exact hR.same _ (runs_structForm scope operands)
  | defineTemplate => exact hR.same _ (runs_templateForm scope operands)
  | defineRule => exact hR.same _ (runs_ruleForm scope operands)
  | assign => exact related_assignForm hR h scope operands
  | attempt => exact related_attemptForm hR h scope operands
  | load => exact himport rfl

/-! ## Calls -/

/-- A built-in procedure runs in the calling scope, a closure in one that is put in front of its own. -/
theorem related_call (pos : Option Position) (f : Value) (args : List Value) :
    R _ (Direct.call r scope pos f args) (Direct.call r' scope pos f args) := by
  unfold Direct.call
  split
  · exact related_builtin hR h _ args scope
  · exact related_ite (hR.bind (hR.childScope _) fun inner => hR.bind (hR.same _ (runs_bindParams inner _)) fun _ =>
      related_evaluateBody hR h inner _) (hR.fault _)
  · exact hR.fault _

theorem related_evaluateAtom (t : Code) : R _ (r.evaluateAtom scope t) (r'.evaluateAtom scope t) := by
  unfold Recursion.evaluateAtom
  split
  · exact hR.same 0 (.lookup scope _ _)
  · exact hR.pure _
  · exact (h.relatedIn hR scope).quasiquote 0 _
  · exact hR.fault _
  · exact hR.bind ((h.relatedIn hR scope).formatParts _) fun _ => hR.pure _
  · exact hR.pure _

/-- Evaluating a term, if what it is related to imports files as it does. -/
theorem related_evaluateTerm (t : Code)
    (himport : ∀ operands, importOperands? t = some operands →
      R _ (Direct.importForm r scope operands) (Direct.importForm r' scope operands)) :
    R _ (Direct.evaluateTerm r t scope) (Direct.evaluateTerm r' t scope) := by
  unfold Direct.evaluateTerm
  split
  next => exact hR.fault _
  next pos head operands =>
    split
    next keyword hkeyword =>
      refine related_specialForm hR h scope _ _ _ fun hload => himport operands ?_
      simp [importOperands?, hkeyword, hload]
    next =>
      refine hR.bind (hR.same 0 (runs_expander? scope _)) fun found => ?_
      split
      · exact hR.bind (related_expand hR h _ _ _) fun expansion => hR.bind (hR.trace _) fun _ => h.evaluate expansion scope
      · exact hR.bind (h.evaluate _ scope) fun f => hR.bind ((h.relatedIn hR scope).evaluateAll _) fun args =>
          related_call hR h scope _ f args
  next => exact related_evaluateAtom hR h scope _

end Parts

end Lisplet
