import Lisplet.Proofs.Evaluation.Running
/-!
# Evaluation that can be halted

To speak of the states in the middle of an evaluation, the evaluator is given a condition: it stops as soon as the store
satisfies it, whenever a term or an application is taken up and whenever one is done with, at any depth and on every turn
of the loop. The store it ends with is the store of that moment. An evaluator that is never halted is the evaluator itself
(`haltingEvaluator_never`), and a halted one has moved only where evaluation may (`confined_haltingEvaluator`).
-/
namespace Lisplet

/-- Stops if the store satisfies a condition. -/
def Eval.haltIf (halt : Store → Bool) : Eval Unit := fun s => if halt s then .error .outOfFuel s else .ok () s

/-- Runs an action, unless the store satisfies a condition before it or behind it. -/
def Eval.haltAround {α : Type} (halt : Store → Bool) (act : Eval α) : Eval α := do
  Eval.haltIf halt
  let a ← act
  Eval.haltIf halt
  return a

mutual

/-- Evaluates a term in a scope, until the store satisfies a condition. -/
def haltingEvaluate (halt : Store → Bool) : Nat → Code → Scope → Eval Value
  | 0, _, _ => throw .outOfFuel
  | n + 1, t, scope => Eval.haltAround halt do
    match ← Recursion.step ⟨haltingEvaluate halt n, haltingApply halt n⟩ t scope with
    | .done v => pure v
    | .tail t' scope' => haltingEvaluate halt n t' scope'

/-- Applies a procedure to values, until the store satisfies a condition. -/
def haltingApply (halt : Store → Bool) : Nat → Value → List Value → Eval Value
  | 0, _, _ => throw .outOfFuel
  | n + 1, f, args =>
    Eval.haltAround halt (Recursion.applyValue ⟨haltingEvaluate halt n, haltingApply halt n⟩ f args)

end

/-- The evaluator, halted by a condition on the store. -/
def haltingEvaluator (halt : Store → Bool) : Recursion := ⟨haltingEvaluate halt fuel, haltingApply halt fuel⟩

theorem haltingEvaluate_succ (halt : Store → Bool) (n : Nat) (t : Code) (scope : Scope) :
    haltingEvaluate halt (n + 1) t scope =
      Eval.haltAround halt (Direct.evaluateTerm ⟨haltingEvaluate halt n, haltingApply halt n⟩ t scope) := by
  rw [← Direct.step_settle, haltingEvaluate]
  refine congrArg _ (bind_congr fun s => ?_)
  cases s <;> rfl

/-- An action that is never halted is the action itself. -/
theorem Eval.haltAround_never {α : Type} (act : Eval α) : Eval.haltAround (fun _ => false) act = act := by
  funext s
  show EStateM.bind act _ s = act s
  unfold EStateM.bind
  cases act s <;> rfl

theorem halting_never (n : Nat) :
    (⟨haltingEvaluate (fun _ => false) n, haltingApply (fun _ => false) n⟩ : Recursion) = ⟨evaluate n, apply n⟩ := by
  induction n with
  | zero => rfl
  | succ n ih =>
    congr 1
    · funext t scope
      rw [haltingEvaluate_succ, Eval.haltAround_never, ih, evaluate_succ]
    · funext f args
      rw [haltingApply, Eval.haltAround_never, ih, apply]

/-- An evaluator that is never halted is the evaluator. -/
theorem haltingEvaluator_never : haltingEvaluator (fun _ => false) = evaluator := halting_never fuel

theorem Runs.haltIf {own : Nat} (halt : Store → Bool) : Runs own (Eval.haltIf halt) := by
  intro s
  unfold Eval.haltIf
  split
  · exact .refl s
  · exact .refl s

theorem Runs.haltAround {α : Type} {own : Nat} (halt : Store → Bool) {act : Eval α} (h : Runs own act) :
    Runs own (Eval.haltAround halt act) :=
  .bind (.haltIf halt) fun _ => .bind h fun a => .bind (.haltIf halt) fun _ => .pure a

theorem confined_halting (halt : Store → Bool) (n : Nat) :
    Recursion.Confined ⟨haltingEvaluate halt n, haltingApply halt n⟩ := by
  induction n with
  | zero => exact ⟨fun _ _ => .throw _, fun _ _ _ => .throw _⟩
  | succ n ih =>
    constructor
    · intro t scope
      show Runs scope.own (haltingEvaluate halt (n + 1) t scope)
      rw [haltingEvaluate_succ]
      exact .haltAround halt (runs_evaluateTerm ih scope t)
    · intro own f args
      show Runs own (haltingApply halt (n + 1) f args)
      rw [haltingApply, Direct.applyValue_eq_call]
      exact .haltAround halt (runs_call ih .global none f args)

/-- Wherever evaluation is halted, it has moved only where it may. -/
theorem confined_haltingEvaluator (halt : Store → Bool) : (haltingEvaluator halt).Confined := confined_halting halt fuel

end Lisplet
