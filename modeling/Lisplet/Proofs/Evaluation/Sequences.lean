import Lisplet.Evaluation
/-!
# What is evaluated in turn

The terms of a row, the parts of a format string, the pairs of a binding list and the holes of a template are evaluated one
after the other. So what holds of actions that only give a value, and of one action after another when it holds of the two,
holds of all of these as soon as it holds of the evaluation of single terms.

It is put as a relation between the actions of two recursions (`Eval.Sequential`, `Recursion.RelatedIn`). A property of one
recursion is a relation that takes no account of the other, so that it needs no induction of its own.
-/
namespace Lisplet

/-- A relation between actions that holds of actions that only give a value, and of one action after another. -/
structure Eval.Sequential (R : (α : Type) → Eval α → Eval α → Prop) : Prop where
  pure : ∀ {α : Type} (a : α), R α (Pure.pure a) (Pure.pure a)
  bind : ∀ {α β : Type} {act act' : Eval α} {f f' : α → Eval β}, R α act act' → (∀ a, R β (f a) (f' a)) →
    R β (act >>= f) (act' >>= f')

/-- Two recursions that evaluate and define alike in a scope, as far as a sequential relation tells. -/
structure Recursion.RelatedIn (R : (α : Type) → Eval α → Eval α → Prop) (scope : Scope) (r r' : Recursion) : Prop
    extends Eval.Sequential R where
  evaluate : ∀ t, R Value (r.evaluate t scope) (r'.evaluate t scope)
  define : ∀ name v, R Unit (Eval.define scope name v) (Eval.define scope name v)

namespace Recursion.RelatedIn

variable {R : (α : Type) → Eval α → Eval α → Prop} {scope : Scope} {r r' : Recursion} (h : RelatedIn R scope r r')
include h

/-! ## Rows -/

theorem evaluateAll (ts : List Code) : R _ (r.evaluateAll scope ts) (r'.evaluateAll scope ts) := by
  induction ts with
  | nil => exact h.pure _
  | cons t ts ih => exact h.bind (h.evaluate t) fun v => h.bind ih fun vs => h.pure _

theorem evaluateLeading (ts : List Code) : R _ (r.evaluateLeading scope ts) (r'.evaluateLeading scope ts) := by
  fun_induction Recursion.evaluateLeading r scope ts with
  | case1 => exact h.pure _
  | case2 t => exact h.pure _
  | case3 t ts hne ih =>
    rw [Recursion.evaluateLeading]
    · exact h.bind (h.evaluate t) fun _ => ih
    · exact hne

theorem evaluateForms (ts : List Code) : R _ (r.evaluateForms scope ts) (r'.evaluateForms scope ts) := by
  fun_induction Recursion.evaluateForms r scope ts with
  | case1 => exact h.pure _
  | case2 t => exact h.evaluate t
  | case3 t ts hne ih =>
    rw [Recursion.evaluateForms]
    · exact h.bind (h.evaluate t) fun _ => ih
    · exact hne

theorem formatParts (ps : List (Part Value)) : R _ (r.formatParts scope ps) (r'.formatParts scope ps) := by
  fun_induction Recursion.formatParts r scope ps with
  | case1 => exact h.pure _
  | case2 s ps ih => exact h.bind ih fun _ => h.pure _
  | case3 t ps ih => exact h.bind (h.evaluate t) fun v => h.bind ih fun _ => h.pure _

/-- Each pair of a binding list is bound before the next one is evaluated. -/
theorem bindInTurn (pairs : List (String × Code)) : R _ (r.bindInTurn scope pairs) (r'.bindInTurn scope pairs) := by
  fun_induction Recursion.bindInTurn r scope pairs with
  | case1 => exact h.pure _
  | case2 name t rest ih => exact h.bind (h.evaluate t) fun v => h.bind (h.define name v) fun _ => ih

/-! ## Templates -/

/-- A template is gone through in the same way, and only its holes are evaluated. -/
theorem quasiquote (d : Nat) (t : Code) : R _ (r.quasiquote scope d t) (r'.quasiquote scope d t) := by
  refine (Recursion.quasiquote.mutual_induct (fun d t => R _ (r.quasiquote scope d t) (r'.quasiquote scope d t))
    (fun d ts => R _ (r.quasiquoteAll scope d ts) (r'.quasiquoteAll scope d ts))
    ?unquoted ?unquotedInside ?quasiquoted ?quoted ?hole ?holeInside ?row ?atom ?nil ?cons).1 d t
  case unquoted =>
    intro pos t
    rw [Recursion.quasiquote, Recursion.quasiquote]
    exact h.evaluate t
  case unquotedInside | quasiquoted | quoted =>
    intro d pos t ih
    rw [Recursion.quasiquote, Recursion.quasiquote]
    exact h.bind ih fun _ => h.pure _
  case hole =>
    intro pos pos' t
    rw [Recursion.quasiquote, Recursion.quasiquote]
    exact h.evaluate t
  case holeInside =>
    intro d pos pos' t ih
    rw [Recursion.quasiquote, Recursion.quasiquote]
    exact h.bind ih fun _ => h.pure _
  case row =>
    intro d pos ts h₁ h₂ ih
    rw [Recursion.quasiquote, Recursion.quasiquote]
    · exact h.bind ih fun _ => h.pure _
    all_goals assumption
  case atom =>
    intro d t h₁ h₂ h₃ h₄ h₅ h₆ h₇
    rw [Recursion.quasiquote, Recursion.quasiquote]
    · exact h.pure _
    all_goals assumption
  case nil =>
    intro d
    rw [Recursion.quasiquoteAll, Recursion.quasiquoteAll]
    exact h.pure _
  case cons =>
    intro d t ts iht ihts
    rw [Recursion.quasiquoteAll, Recursion.quasiquoteAll]
    exact h.bind iht fun _ => h.bind ihts fun _ => h.pure _

/-- A hole that is a parameter takes its operand as it stands; any other hole is evaluated and its data taken for code. -/
theorem fillHole (args : Bindings Code) (pos : Position) (t : Code) :
    R _ (Expansion.fillHole r args scope pos t) (Expansion.fillHole r' args scope pos t) := by
  unfold Expansion.fillHole
  split
  · exact h.pure _
  · exact h.bind (h.evaluate t) fun _ => h.pure _

/-- A template with operands to fill in is gone through as one without, its format strings included. -/
theorem fill (args : Bindings Code) (d : Nat) (t : Code) :
    R _ (Expansion.fill r args scope d t) (Expansion.fill r' args scope d t) := by
  refine (Expansion.fill.mutual_induct
    (fun d t => R _ (Expansion.fill r args scope d t) (Expansion.fill r' args scope d t))
    (fun d ps => R _ (Expansion.fillParts r args scope d ps) (Expansion.fillParts r' args scope d ps))
    (fun d ts => R _ (Expansion.fillAll r args scope d ts) (Expansion.fillAll r' args scope d ts))
    ?unquoted ?unquotedInside ?quasiquoted ?quoted ?row ?format ?atom ?nil ?cons ?noParts ?text ?code).1 d t
  case unquoted =>
    intro pos t
    rw [Expansion.fill, Expansion.fill]
    exact h.fillHole args pos t
  case unquotedInside | quasiquoted | quoted =>
    intro d pos t ih
    rw [Expansion.fill, Expansion.fill]
    exact h.bind ih fun _ => h.pure _
  case row | format =>
    intro d pos ts ih
    rw [Expansion.fill, Expansion.fill]
    exact h.bind ih fun _ => h.pure _
  case atom =>
    intro d t h₁ h₂ h₃ h₄ h₅ h₆
    rw [Expansion.fill, Expansion.fill]
    · exact h.pure _
    all_goals assumption
  case nil =>
    intro d
    rw [Expansion.fillAll, Expansion.fillAll]
    exact h.pure _
  case cons =>
    intro d t ts iht ihts
    rw [Expansion.fillAll, Expansion.fillAll]
    exact h.bind iht fun _ => h.bind ihts fun _ => h.pure _
  case noParts =>
    intro d
    rw [Expansion.fillParts, Expansion.fillParts]
    exact h.pure _
  case text =>
    intro d s ps ih
    rw [Expansion.fillParts, Expansion.fillParts]
    exact h.bind ih fun _ => h.pure _
  case code =>
    intro d t ps iht ihps
    rw [Expansion.fillParts, Expansion.fillParts]
    exact h.bind iht fun _ => h.bind ihps fun _ => h.pure _

end Recursion.RelatedIn

end Lisplet
