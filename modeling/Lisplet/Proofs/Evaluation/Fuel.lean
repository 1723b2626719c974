import Lisplet.Proofs.Evaluation.Congruence
/-!
# More steps than needed

A run that is allowed more steps than it needs ends as it would with fewer. `Eval.Within act act'` says that the first action,
unless it runs out of steps, does what the second does. Running out of steps is not caught by anything, so what is made of
actions that are within others is within what is made of these (`congruence_within`). Each part of the evaluator is made so
of its recursion (`within_evaluateTerm`), and by induction evaluation with one step less is within evaluation
(`within_evaluate`).
-/
namespace Lisplet

/-- A result of running out of steps. -/
def Eval.OutOfFuel {α : Type} (x : EStateM.Result Signal Store α) : Prop := ∃ s, x = .error .outOfFuel s

/-- The first action runs out of steps or does what the second does. -/
def Eval.Within {α : Type} (act act' : Eval α) : Prop := ∀ s, Eval.OutOfFuel (act s) ∨ act s = act' s

namespace Eval.Within

variable {α β : Type}

theorem refl (act : Eval α) : Within act act := fun _ => .inr rfl

theorem bind {act act' : Eval α} {f f' : α → Eval β} (h : Within act act') (hf : ∀ a, Within (f a) (f' a)) :
    Within (act >>= f) (act' >>= f') := by
  intro s
  rcases h s with ⟨m, hm⟩ | he
  · exact .inl ⟨m, EStateM.bind_of_error hm f⟩
  · cases hact : act s with
    | ok a m =>
      rw [EStateM.bind_of_ok hact, EStateM.bind_of_ok (he.symm.trans hact)]
      exact hf a m
    | error e m =>
      rw [EStateM.bind_of_error hact, EStateM.bind_of_error (he.symm.trans hact)]
      exact .inr rfl

/-- The same action in front of two others. -/
theorem behind (act : Eval α) {f f' : α → Eval β} (hf : ∀ a, Within (f a) (f' a)) : Within (act >>= f) (act >>= f') :=
  bind (refl act) hf

/-- The same action behind two others. -/
theorem front {act act' : Eval α} (h : Within act act') (f : α → Eval β) : Within (act >>= f) (act' >>= f) :=
  bind h fun a => refl (f a)

theorem catching {body body' : Eval Value} {handle handle' : Fault → Eval Value} (hb : Within body body')
    (hh : ∀ f, Within (handle f) (handle' f)) :
    Within (Recursion.catching body handle) (Recursion.catching body' handle') := by
  intro s
  unfold Recursion.catching
  rcases hb s with ⟨m, hm⟩ | he
  · exact .inl ⟨m, by rw [hm]⟩
  · rw [← he]
    cases body s with
    | ok a m => exact .inr rfl
    | error e m =>
      cases e with
      | fault f => exact hh f m
      | _ => exact .inr rfl

theorem withCaller (scope : Scope) {act act' : Eval α} (h : Within act act') :
    Within (Eval.withCaller scope act) (Eval.withCaller scope act') := by
  intro s
  simp only [Eval.withCaller]
  rcases h { s with caller := scope } with ⟨m, hm⟩ | he
  · exact .inl ⟨_, by rw [hm]⟩
  · exact .inr (by rw [he])

theorem withImport (path : String) {act act' : Eval α} (h : Within act act') :
    Within (Eval.withImport path act) (Eval.withImport path act') := by
  intro s
  simp only [Eval.withImport]
  rcases h { s with directory := Path.parent path, importing := path :: s.importing } with ⟨m, hm⟩ | he
  · exact .inl ⟨_, by rw [hm]⟩
  · exact .inr (by rw [he])

end Eval.Within

/-- A recursion whose operations are within those of another. -/
structure Recursion.Within (r r' : Recursion) : Prop where
  evaluate : ∀ t scope, Eval.Within (r.evaluate t scope) (r'.evaluate t scope)
  apply : ∀ f args, Eval.Within (r.apply f args) (r'.apply f args)

open Eval (Within)

/-- Evaluation passes on that an action is within another. -/
theorem congruence_within : Eval.Congruence fun α => Within (α := α) where
  same _ act _ := .refl act
  bind := .bind
  catching := .catching
  withCaller := .withCaller

section Parts

variable {r r' : Recursion} (h : r.Within r') (scope : Scope)
include h

theorem Recursion.Within.related : r.Related (fun α => Eval.Within (α := α)) r' := ⟨h.evaluate, h.apply⟩

theorem within_importFile (file : String) : Within (r.importFile file) (r'.importFile file) := by
  refine .behind _ fun s => related_ite (.refl _) ?_
  refine .behind _ fun text => .behind _ fun _ => .front (.withImport _ ?_) _
  exact related_evaluateSource congruence_within h.related .global text

theorem within_importForm (operands : List Code) :
    Within (Direct.importForm r scope operands) (Direct.importForm r' scope operands) :=
  .behind _ fun t => .bind (h.evaluate t scope) fun _ => .behind _ fun file => .front (within_importFile h file) _

theorem within_evaluateTerm (t : Code) : Within (Direct.evaluateTerm r t scope) (Direct.evaluateTerm r' t scope) :=
  related_evaluateTerm congruence_within h.related scope t fun operands _ => within_importForm h scope operands

theorem within_call (pos : Option Position) (f : Value) (args : List Value) :
    Within (Direct.call r scope pos f args) (Direct.call r' scope pos f args) :=
  related_call congruence_within h.related scope pos f args

end Parts

/-- Evaluation with one step less is within evaluation. -/
theorem within_evaluate (n : Nat) : Recursion.Within ⟨evaluate n, apply n⟩ ⟨evaluate (n + 1), apply (n + 1)⟩ := by
  induction n with
  | zero => exact ⟨fun _ _ s => .inl ⟨s, rfl⟩, fun _ _ s => .inl ⟨s, rfl⟩⟩
  | succ n ih =>
    constructor
    · intro t scope
      show Within (evaluate (n + 1) t scope) (evaluate (n + 2) t scope)
      rw [evaluate_succ, evaluate_succ]
      exact within_evaluateTerm ih scope t
    · intro f args
      show Within (apply (n + 1) f args) (apply (n + 2) f args)
      rw [apply_succ, apply_succ]
      exact within_call ih .global none f args

end Lisplet
