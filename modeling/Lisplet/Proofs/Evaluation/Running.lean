import Lisplet.Proofs.Evaluation.Direct
import Lisplet.Proofs.Evaluation.Moves
import Lisplet.Proofs.Evaluation.Sequences
/-!
# Every part of the evaluator runs in its own frame

A recursion is `Confined` when evaluating a term only moves in the own frame of its scope, and applying
a procedure only in frames opened for it or the global one. Each part of the evaluator that calls a
confined recursion back runs in the frame it was given (`runs_evaluateTerm`), and so, by induction on
the steps allowed, does evaluation as a whole (`confined_evaluate`). A body that is evaluated in a
scope of its own is one action together with the opening of that scope, so the forms are taken as
plain recursion has them.
-/
namespace Lisplet

/-- A recursion whose operations move only where they may. -/
structure Recursion.Confined (r : Recursion) : Prop where
  evaluate : ∀ t scope, Runs scope.own (r.evaluate t scope)
  apply : ∀ own f args, Runs own (r.apply f args)

variable {r : Recursion} {own : Nat}

/-- What is evaluated in turn in a scope runs in the own frame of the scope. -/
theorem Recursion.Confined.relatedIn (h : r.Confined) (scope : Scope) :
    Recursion.RelatedIn (fun _ act _ => Runs scope.own act) scope r r where
  pure := .pure
  bind := .bind
  evaluate t := h.evaluate t scope
  define := .define scope

/-! ## Macros -/

theorem runs_bindOperands (scope : Scope) (pairs : List (String × Code)) :
    Runs scope.own (Expansion.bindOperands scope pairs) := by
  fun_induction Expansion.bindOperands scope pairs with
  | case1 => exact .pure _
  | case2 param operand rest ih => exact .bind (.define scope param _) fun _ => ih

/-- A template is filled in a scope of its own, and its operands are bound in a new frame; a rule runs nothing. -/
theorem runs_expand (h : r.Confined) (name : String) (t : Transformer Value) (operands : List Code) :
    Runs own (Expansion.expand r name t operands) := by
  unfold Expansion.expand
  split
  next params body scope =>
    unfold Expansion.expandTemplate
    refine .ite (.childScope fun inner => .bind (runs_bindOperands inner _) fun _ => ?_) (.fault _)
    split
    · exact (h.relatedIn inner).fill _ 0 _
    · exact .bind (h.evaluate _ inner) fun _ => .pure _
  next => exact .ofExcept _

/-! ## Built-in procedures -/

/-- What is asked of the host goes to the log or comes from the world, and binds nothing. -/
theorem runs_host (op : HostOperation) (args : List Value) : Runs own (op.run args) := by
  unfold HostOperation.run
  split
  · exact .bind (.write _) fun _ => .pure _
  · exact .bind (.write _) fun _ => .pure _
  · exact .bind (.write _) fun _ => .pure _
  · exact .bind (.writeError _) fun _ => .pure _
  · exact .fault _
  · refine .bind .readLine fun line => ?_
    split
    · exact .pure _
    · exact .pure _
  · exact .bind (.ofExcept _) fun _ => .bind .get fun _ => .bind (.readFile _) fun _ => .pure _
  · refine .bind (.ofExcept _) fun _ => .bind .get fun _ => .bind (.answer _ _) fun text => ?_
    split
    · exact .pure _
    · exact .pure _
  · exact .bind .currentTime fun _ => .pure _
  · exact .bind .chance fun _ => .pure _
  · exact .ofExcept _

theorem runs_formatPieces (h : r.Confined) (ps : List Format.Piece) : Runs 0 (Control.formatPieces r ps) := by
  fun_induction Control.formatPieces r ps with
  | case1 => exact .pure _
  | case2 raw value ps ih => exact .bind ih fun _ => .pure _
  | case3 source ps ih =>
    exact .bind (.ofExcept _) fun t => .bind (h.evaluate t .global) fun _ => .bind ih fun _ => .pure _

/-- An expression in a format text is evaluated in the global scope, as it has no other. -/
theorem runs_formatText (h : r.Confined) (template : String) : Runs own (Control.formatText r template) := by
  unfold Control.formatText
  split
  · exact .fault _
  · exact .globally (.bind (runs_formatPieces h _) fun _ => .pure _)

/-- A macro call that is given as data is looked up in the calling scope and expanded. -/
theorem runs_expandData (h : r.Confined) (data : Value) : Runs own (Control.expandData r data) := by
  unfold Control.expandData
  split
  · refine .bind .get fun s => ?_
    split
    · exact .fault _
    · exact .bind (runs_expand h _ _ _) fun _ => .pure _
    · exact .fault _
  · exact .fault _

/-- To do something a number of times is to do it again and again. -/
theorem runs_times {act : Eval Value} (h : Runs own act) (n : Nat) : Runs own (Control.times n act) := by
  induction n with
  | zero => exact .pure _
  | succ n ih => exact .bind h fun _ => ih

theorem runs_repeatCall (h : r.Confined) (count procedure : Value) :
    Runs own (Control.repeatCall r count procedure) := by
  refine .bind (.ofExcept _) fun x => ?_
  split
  · exact .ite (.bind (runs_times (h.apply own procedure []) _) fun _ => .pure _) (.fault _)
  · exact .fault _

theorem runs_control (h : r.Confined) (op : Control) (args : List Value) : Runs own (Control.run r op args) := by
  unfold Control.run
  split
  · exact .globally (h.evaluate _ .global)
  · exact .bind (.ofExcept _) fun _ => runs_formatText h _
  · exact runs_expandData h _
  · exact runs_repeatCall h _ _
  · exact .throw _
  · exact .bind (.ofExcept _) fun _ => .throw _
  · exact .bind (.ofExcept _) fun _ => .bind .get fun _ => .ite (.pure _) (.fault _)
  · exact .ofExcept _

theorem runs_operation (h : r.Confined) (op : Operation) (args : List Value) : Runs own (op.run r args) := by
  cases op with
  | arithmetic op => exact .bind .freshStamp fun _ => .ofExcept _
  | logic op => exact .ofExcept _
  | sequence op => exact .ofExcept _
  | inspection op => exact .ofExcept _
  | errors op => exact .bind .freshStamp fun _ => .ofExcept _
  | structs op => exact .bind .freshStamp fun _ => .ofExcept _
  | host op => exact runs_host op args
  | control op => exact runs_control h op args

/-- A built-in procedure runs with the scope that calls it, which is put back behind it. -/
theorem runs_builtin (h : r.Confined) (b : Builtin) (args : List Value) (scope : Scope) :
    Runs own (b.call r args scope) := by
  unfold Builtin.call
  exact .ite (.withCaller scope (runs_operation h _ args)) (.fault _)

/-! ## Procedures and definitions -/

/-- Making a closure takes a stamp and checks the parameters; the body waits. -/
theorem runs_makeClosure (name : Option String) (params body : List Code) (scope : Scope) :
    Runs own (Recursion.makeClosure name params body scope) :=
  .bind (.ofExcept _) fun _ => .bind .freshStamp fun _ => .pure _

theorem runs_lambdaForm (scope : Scope) (operands : List Code) : Runs own (Direct.lambdaForm scope operands) := by
  unfold Direct.lambdaForm
  split
  · exact .ite (.fault _) (runs_makeClosure _ _ _ _)
  · exact .fault _

theorem runs_named (name : String) (v : Value) : Runs own (Recursion.named name v) := by
  unfold Recursion.named
  split
  · exact .bind .freshStamp fun _ => .pure _
  · exact .pure _

section Forms

variable (h : r.Confined) (scope : Scope)

/-- A definition binds in the frame of the scope that it stands in. -/
theorem runs_defineProcedure (pos : Position) (pattern body : List Code) :
    Runs scope.own (Direct.defineProcedure scope pos pattern body) := by
  unfold Direct.defineProcedure
  split
  · exact .fault _
  · refine .ite (.fault _) ?_
    split
    · exact .bind (runs_makeClosure _ _ _ _) fun _ => .bind (.define scope _ _) fun _ => .bind (.trace _) fun _ =>
        .pure _
    · exact .fault _

theorem runs_defineBuiltins (bs : List Builtin) : Runs scope.own (Recursion.defineBuiltins scope bs) := by
  fun_induction Recursion.defineBuiltins scope bs with
  | case1 => exact .pure _
  | case2 b bs ih => exact .bind (.define scope _ _) fun _ => ih

/-- A type is registered behind those that there are, or refused when there is no room. -/
theorem runs_registerStruct (name : String) (fields : List String) :
    Runs own (Recursion.registerStruct name fields) := by
  intro s
  unfold Recursion.registerStruct
  split
  next hr => exact .register s hr
  next => exact .refl s

/-- A struct definition binds the type and its procedures in one frame, after it was registered. -/
theorem runs_structForm (operands : List Code) : Runs scope.own (Direct.structForm scope operands) := by
  unfold Direct.structForm
  split
  · split
    · exact .fault _
    · exact .bind (runs_registerStruct _ _) fun _ => .bind (.define scope _ _) fun _ =>
        .bind (runs_defineBuiltins scope _) fun _ => .bind (.trace _) fun _ => .pure _
  · exact .fault _

theorem runs_templateForm (operands : List Code) : Runs scope.own (Direct.templateForm scope operands) :=
  .bind (.ofExcept _) fun _ => .bind (.ofExcept _) fun _ => .bind .freshStamp fun _ =>
    .bind (.define scope _ _) fun _ => .bind (.trace _) fun _ => .pure _

theorem runs_ruleForm (operands : List Code) : Runs scope.own (Direct.ruleForm scope operands) :=
  .bind (.ofExcept _) fun _ => .bind .freshStamp fun _ => .bind (.define scope _ _) fun _ =>
    .bind (.trace _) fun _ => .pure _

include h

theorem runs_defineForm (operands : List Code) : Runs scope.own (Direct.defineForm r scope operands) := by
  unfold Direct.defineForm
  split
  · exact .fault _
  · exact runs_defineProcedure scope _ _ _
  · exact .bind (h.evaluate _ scope) fun _ => .bind (runs_named _ _) fun _ => .bind (.define scope _ _) fun _ =>
      .bind (.trace _) fun _ => .pure _
  · exact .fault _
  · exact .fault _

/-- An assignment changes the frame that has the name, if it is none of the reserved ones. -/
theorem runs_assignForm (operands : List Code) : Runs scope.own (Direct.assignForm r scope operands) := by
  unfold Direct.assignForm
  split
  · split
    case isTrue => exact .fault _
    case isFalse hn =>
      exact .bind (h.evaluate _ scope) fun v => .bind (.assign scope v (by simpa using hn)) fun _ => .pure _
  · exact .fault _
  · exact .fault _

/-! ## Choices and sequences -/

theorem runs_condForm (clauses : List Code) : Runs scope.own (Direct.condForm r scope clauses) := by
  fun_induction Direct.condForm r scope clauses with
  | case1 => exact .pure _
  | case2 pos condition consequent => exact h.evaluate consequent scope
  | case3 pos condition consequent clauses _ ih =>
    refine .bind (h.evaluate condition scope) fun v => ?_
    split
    · exact h.evaluate consequent scope
    · exact ih
    · exact .fault _
  | case4 => exact .fault _
  | case5 => exact .fault _

theorem runs_branchForm (operands : List Code) : Runs scope.own (Direct.branchForm r scope operands) := by
  unfold Direct.branchForm
  split
  · refine .bind (h.evaluate _ scope) fun v => ?_
    split
    · exact h.evaluate _ scope
    · exact h.evaluate _ scope
    · exact .fault _
  · exact .fault _

theorem runs_evaluateBody (body : List Code) : Runs scope.own (Direct.evaluateBody r scope body) :=
  .bind ((h.relatedIn scope).evaluateLeading body) fun last => h.evaluate last scope

/-- The body of a `let` runs in a frame of its own, and so do its bindings. -/
theorem runs_letForm (operands : List Code) : Runs own (Direct.letForm r scope operands) := by
  unfold Direct.letForm
  split
  · exact .fault _
  · split
    · exact .fault _
    · exact .bind (.ofExcept _) fun pairs => .ite (.fault _) (.childScope fun inner =>
        .bind ((h.relatedIn inner).bindInTurn pairs) fun _ => runs_evaluateBody h inner _)

theorem runs_beginForm (body : List Code) : Runs scope.own (Direct.beginForm r scope body) :=
  .ite (.pure _) (runs_evaluateBody h scope body)

theorem runs_markedForm (pos : Position) (operands : List Code) (m : Marker) :
    Runs scope.own (Direct.markedForm r scope pos operands m) := by
  cases m with
  | quote => exact .bind (.ofExcept _) fun _ => .pure _
  | quasiquote => exact .bind (.ofExcept _) fun t => (h.relatedIn scope).quasiquote 0 t
  | unquote => exact .fault _

/-! ## Faults and files -/

/-- A handler runs from the store that the fault has left behind. -/
theorem runs_attemptForm (operands : List Code) : Runs scope.own (Direct.attemptForm r scope operands) := by
  unfold Direct.attemptForm
  split
  · refine .bind (h.evaluate _ scope) fun handler => .ite ?_ (.fault _)
    exact .catching (h.evaluate _ scope) fun f =>
      .bind (.trace _) fun _ => .bind .freshStamp fun _ => h.apply _ handler _
  · exact .fault _

theorem runs_evaluateSource (source : String) : Runs scope.own (r.evaluateSource scope source) :=
  .bind (.ofExcept _) fun forms => (h.relatedIn scope).evaluateForms forms

omit scope in
/-- The forms of a file run in the global scope, with the file among the imports in progress. -/
theorem runs_importFile (file : String) : Runs own (r.importFile file) := by
  intro s
  rw [show r.importFile file s =
    (if s.importing.contains (Path.resolve s.directory file) then
      Eval.trace fun _ => "Import skipped (already in progress): " ++ Path.resolve s.directory file
    else do
      let text ← Eval.readFile (Path.resolve s.directory file)
      Eval.trace fun _ => "Import: " ++ Path.resolve s.directory file
      let _ ← Eval.withImport (Path.resolve s.directory file) (r.evaluateSource .global text)
      pure () : Eval Unit) s from rfl]
  generalize Path.resolve s.directory file = path
  split
  case isTrue => exact Runs.trace _ s
  case isFalse hnew =>
    refine Runs.bindAt (Runs.readFile path s) fun text m hread => ?_
    obtain ⟨hfile, rfl⟩ := Eval.readFile_eq_ok hread
    refine Runs.bindAt (Runs.trace _ s) fun _ m htrace => ?_
    obtain ⟨himports, hworld⟩ : m.importing = s.importing ∧ m.world = s.world := by
      rw [Eval.trace_apply] at htrace
      obtain ⟨-, rfl⟩ := EStateM.Result.ok.inj htrace
      split <;> exact ⟨rfl, rfl⟩
    refine Runs.bindAt (Runs.withImport (.globally (runs_evaluateSource h .global text)) ?_ (hworld ▸ hfile))
      fun _ m' _ => .refl m'
    rw [himports]
    simpa using hnew

theorem runs_importForm (operands : List Code) : Runs scope.own (Direct.importForm r scope operands) :=
  .bind (.ofExcept _) fun t => .bind (h.evaluate t scope) fun _ => .bind (.ofExcept _) fun file =>
    .bind (runs_importFile h file) fun _ => .pure _

theorem runs_specialForm (pos : Position) (operands : List Code) (keyword : Keyword) :
    Runs scope.own (Direct.specialForm r scope pos operands keyword) := by
  cases keyword with
  | define => exact runs_defineForm h scope operands
  | lambda => exact runs_lambdaForm scope operands
  | cond => exact runs_condForm h scope operands
  | branch => exact runs_branchForm h scope operands
  | letIn => exact runs_letForm h scope operands
  | begin => exact runs_beginForm h scope operands
  | marked m => exact runs_markedForm h scope pos operands m
  | defineStruct => exact runs_structForm scope operands
  | defineTemplate => exact runs_templateForm scope operands
  | defineRule => exact runs_ruleForm scope operands
  | assign => exact runs_assignForm h scope operands
  | attempt => exact runs_attemptForm h scope operands
  | load => exact runs_importForm h scope operands

/-! ## Calls -/

omit h in
/-- Parameters are bound in the frame of the call. -/
theorem runs_bindParams (pairs : List (String × Value)) : Runs scope.own (Recursion.bindParams scope pairs) := by
  fun_induction Recursion.bindParams scope pairs with
  | case1 => exact .pure _
  | case2 name v rest ih => exact .bind (.define scope name v) fun _ => ih

/-- What goes on in the body of a closure happens in a frame of its own. -/
theorem runs_call (pos : Option Position) (f : Value) (args : List Value) :
    Runs own (Direct.call r scope pos f args) := by
  unfold Direct.call
  split
  · exact runs_builtin h _ args scope
  · exact .ite (.childScope fun inner => .bind (runs_bindParams inner _) fun _ => runs_evaluateBody h inner _)
      (.fault _)
  · exact .fault _

theorem runs_evaluateAtom (t : Code) : Runs scope.own (r.evaluateAtom scope t) := by
  unfold Recursion.evaluateAtom
  split
  · exact .lookup scope _ _
  · exact .pure _
  · exact (h.relatedIn scope).quasiquote 0 _
  · exact .fault _
  · exact .bind ((h.relatedIn scope).formatParts _) fun _ => .pure _
  · exact .pure _

omit h in
/-- To look up whether a head is a macro changes nothing. -/
theorem runs_expander? (head : Code) : Runs own (Recursion.expander? scope head) := by
  unfold Recursion.expander?
  split
  · exact .pure _
  · refine .bind (.lookup? scope _) fun v => ?_
    split
    · exact .pure _
    · exact .pure _

/-- Evaluating a term runs in the own frame of its scope. -/
theorem runs_evaluateTerm (t : Code) : Runs scope.own (Direct.evaluateTerm r t scope) := by
  unfold Direct.evaluateTerm
  split
  · exact .fault _
  · split
    · exact runs_specialForm h scope _ _ _
    · refine .bind (runs_expander? scope _) fun found => ?_
      split
      · exact .bind (runs_expand h _ _ _) fun _ => .bind (.trace _) fun _ => h.evaluate _ scope
      · exact .bind (h.evaluate _ scope) fun f => .bind ((h.relatedIn scope).evaluateAll _) fun args =>
          runs_call h scope _ f args
  · exact runs_evaluateAtom h scope _

end Forms

/-- Evaluation runs in the own frame of its scope, and applying a procedure in whatever frame it is
applied from, for every number of steps. -/
theorem confined_evaluate (n : Nat) : Recursion.Confined ⟨evaluate n, apply n⟩ := by
  induction n with
  | zero => exact ⟨fun _ _ => .throw _, fun _ _ _ => .throw _⟩
  | succ n ih =>
    constructor
    · intro t scope
      show Runs scope.own (evaluate (n + 1) t scope)
      rw [evaluate_succ]
      exact runs_evaluateTerm ih scope t
    · intro own f args
      show Runs own (apply (n + 1) f args)
      rw [apply_succ]
      exact runs_call ih .global none f args

end Lisplet
