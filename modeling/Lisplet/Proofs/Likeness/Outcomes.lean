import Lisplet.Proofs.Evaluation.Fuel
import Lisplet.Proofs.Likeness.Lookout
import Lisplet.Proofs.Likeness.Programs
import Lisplet.Proofs.Likeness.Tracing
/-!
# Outcomes

What is seen of a run from outside is how it ends and what it has handed out: `SameOutcome` says that two runs end with the same
printed value, with a fault of the same code or in the same other way, and that they have handed out the same and registered
the same struct types. Runs that are the same up to places have the same outcome (`SameRun.outcome`), and so have, but for the
trace, a run of marked code and the run of its long spelling (`SameOutcome.of_compares`).

Terms are compared by what evaluating them comes to: `SameEvaluation` also counts the trace, `SameUntraced` does not.
-/
namespace Lisplet

/-! ## Outcomes of runs -/

/-- Runs that end with the same printed value, with a fault of the same code or in the same other way, that have handed out the
same and registered the same types. -/
inductive SameOutcome : EStateM.Result Signal Store Value → EStateM.Result Signal Store Value → Prop
  | value {v v' : Value} {s s' : Store} : v.repr = v'.repr → v.display = v'.display → s.ShowsAs s' →
      SameOutcome (.ok v s) (.ok v' s')
  | fault {f f' : Fault} {s s' : Store} : f.code = f'.code → s.ShowsAs s' →
      SameOutcome (.error (.fault f) s) (.error (.fault f') s')
  | exit (status : Float) {s s' : Store} : s.ShowsAs s' → SameOutcome (.error (.exit status) s) (.error (.exit status) s')
  | waiting (q : Question) {s s' : Store} : s.ShowsAs s' → SameOutcome (.error (.waiting q) s) (.error (.waiting q) s')
  | outOfFuel {s s' : Store} : s.ShowsAs s' → SameOutcome (.error .outOfFuel s) (.error .outOfFuel s')

/-- Values that are the same up to places are printed alike. -/
theorem SameRun.outcome {x y : EStateM.Result Signal Store Value} (h : SameRun x y) : SameOutcome x y := by
  cases h with
  | @value v v' _ _ hv hs =>
    have hrepr : v.repr = v'.repr := by rw [← Value.repr_seen (w := .blind) v, hv, Value.repr_seen]
    have hdisplay : v.display = v'.display := by rw [← Value.display_seen (w := .blind) v, hv, Value.display_seen]
    exact .value hrepr hdisplay hs
  | fault hf hs => exact .fault hf.code hs
  | exit status hs => exact .exit status hs
  | waiting q hs => exact .waiting q hs
  | outOfFuel hs => exact .outOfFuel hs

namespace SameOutcome

theorem refl (x : EStateM.Result Signal Store Value) : SameOutcome x x := by
  refine (SameRun.of_agree ?_).outcome
  cases x with
  | ok v s => exact .ok rfl rfl
  | error e s => exact .error rfl rfl

theorem trans {x y z : EStateM.Result Signal Store Value} (h : SameOutcome x y) (h' : SameOutcome y z) :
    SameOutcome x z := by
  cases h with
  | value hr hd hs =>
    cases h' with
    | value hr' hd' hs' => exact .value (hr.trans hr') (hd.trans hd') (hs.trans hs')
  | fault hc hs =>
    cases h' with
    | fault hc' hs' => exact .fault (hc.trans hc') (hs.trans hs')
  | exit status hs =>
    cases h' with
    | exit _ hs' => exact .exit status (hs.trans hs')
  | waiting q hs =>
    cases h' with
    | waiting _ hs' => exact .waiting q (hs.trans hs')
  | outOfFuel hs =>
    cases h' with
    | outOfFuel hs' => exact .outOfFuel (hs.trans hs')

theorem symm {x y : EStateM.Result Signal Store Value} (h : SameOutcome x y) : SameOutcome y x := by
  cases h with
  | value hr hd hs => exact .value hr.symm hd.symm hs.symm
  | fault hc hs => exact .fault hc.symm hs.symm
  | exit status hs => exact .exit status hs.symm
  | waiting q hs => exact .waiting q hs.symm
  | outOfFuel hs => exact .outOfFuel hs.symm

theorem outOfFuel_of {x y : EStateM.Result Signal Store Value} (h : SameOutcome x y) (hy : Eval.OutOfFuel y) :
    Eval.OutOfFuel x := by
  obtain ⟨s, rfl⟩ := hy
  cases h with
  | outOfFuel _ => exact ⟨_, rfl⟩

end SameOutcome

/-! ## Outcomes without the trace -/

/-- A run as if it had not been traced. -/
def Eval.untraced {α : Type} : EStateM.Result Signal Store α → EStateM.Result Signal Store α
  | .ok a s => .ok a s.untraced
  | .error e s => .error e s.untraced

/-- No trace is left in a store that was never traced. -/
theorem Store.traceLines_untraced (s : Store) : s.untraced.traceLines = [] := by
  refine List.filterMap_eq_nil_iff.2 fun e he => ?_
  rw [untraced, Array.toList_filter] at he
  simpa using (List.mem_filter.1 he).2

theorem Store.ShowsAs.untraced {s s' : Store} (h : s.ShowsAs s') : s.untraced.ShowsAs s'.untraced where
  output := by rw [Store.outputText_untraced, Store.outputText_untraced, h.output]
  errorOutput := by rw [Store.errorText_untraced, Store.errorText_untraced, h.errorOutput]
  trace := by rw [Store.traceLines_untraced, Store.traceLines_untraced]
  types := h.types

/-- Stores that are seen as the same without a trace show the same but for it. -/
theorem Store.showsAs_of_dim {s s' : Store} (h : s.seen .dim = s'.seen .spelling) : s.untraced.ShowsAs s'.untraced := by
  have hlog : s.untraced.log = s'.untraced.log :=
    (congrArg Store.log h : (s.seen .dim).log = (s'.seen .spelling).log)
  have hregistry : s.registry = s'.registry := Store.eq_of_seen Store.registry h fun _ _ => rfl
  constructor
  · rw [Store.outputText, Store.outputText, hlog]
  · rw [Store.errorText, Store.errorText, hlog]
  · rw [Store.traceLines, Store.traceLines, hlog]
  · exact congrArg Registry.types hregistry

namespace SameOutcome

theorem untraced {x y : EStateM.Result Signal Store Value} (h : SameOutcome x y) :
    SameOutcome (Eval.untraced x) (Eval.untraced y) := by
  cases h with
  | value hr hd hs => exact .value hr hd hs.untraced
  | fault hc hs => exact .fault hc hs.untraced
  | exit status hs => exact .exit status hs.untraced
  | waiting q hs => exact .waiting q hs.untraced
  | outOfFuel hs => exact .outOfFuel hs.untraced

/-- A run of the long spelling and a run of marked code have the same outcome but for the trace, if neither of them stopped
before they could be compared. -/
theorem of_compares {early late : Signal → Prop} {he : ∀ f, ¬ early (.fault f)} {hl : ∀ f, ¬ late (.fault f)}
    {x y : EStateM.Result Signal Store Value}
    (h : Compares (.spelling early late he hl) (Value.seen .dim) (Value.seen .spelling) x y)
    (hx : ∀ e s, x = .error e s → ¬ early e) (hy : ∀ e s, y = .error e s → ¬ late e) :
    SameOutcome (Eval.untraced x) (Eval.untraced y) := by
  cases h with
  | ok hv hs =>
    exact .value (Value.eq_of_seen Value.repr (fun _ => Value.repr_seen) hv)
      (Value.eq_of_seen Value.display (fun _ => Value.display_seen) hv) (Store.showsAs_of_dim hs)
  | @error e e' s s' heard hs =>
    have hshows := Store.showsAs_of_dim hs
    -- Only a fault is heard otherwise than it is, and it is heard as a fault of the same code.
    cases e with
    | fault f =>
      cases e' with
      | fault f' => exact .fault (congrArg Fault.code (Signal.fault.inj heard) :) hshows
      | _ => cases heard
    | exit status =>
      cases e' with
      | exit status' =>
        obtain rfl : status = status' := Signal.exit.inj heard
        exact .exit status hshows
      | _ => cases heard
    | waiting q =>
      cases e' with
      | waiting q' =>
        obtain rfl : q = q' := Signal.waiting.inj heard
        exact .waiting q hshows
      | _ => cases heard
    | outOfFuel =>
      cases e' with
      | outOfFuel => exact .outOfFuel hshows
      | _ => cases heard
  | early h => exact absurd h (hx _ _ rfl)
  | late h => exact absurd h (hy _ _ rfl)

end SameOutcome

/-! ## Evaluation of two terms -/

/-- Evaluating the first term in the global scope has the same outcome as evaluating the second, for which a step less is
enough. Unless it runs out of steps, it has the same outcome with the same number of steps. -/
structure SameEvaluation (s : Store) (t u : Code) : Prop where
  steps : ∀ n, SameOutcome (evaluate (n + 2) t .global s) (evaluate (n + 1) u .global s)
  whole : Eval.OutOfFuel (evaluator.evaluate t .global s) ∨
    SameOutcome (evaluator.evaluate t .global s) (evaluator.evaluate u .global s)

/-- It is enough to compare runs of every number of steps, since the evaluator has a fixed one. -/
theorem SameEvaluation.of_steps {s : Store} {t u : Code}
    (h : ∀ n, SameOutcome (evaluate (n + 2) t .global s) (evaluate (n + 1) u .global s)) : SameEvaluation s t u := by
  refine ⟨h, ?_⟩
  obtain ⟨n, hn⟩ := Nat.exists_eq_add_of_le' two_le_fuel
  rw [evaluator, hn]
  rcases (within_evaluate (n + 1)).evaluate u .global s with hout | heq
  · exact .inl ((h n).outOfFuel_of hout)
  · exact .inr (heq ▸ h n)

/-- Evaluating the first term in the global scope has, but for the trace, the same outcome as evaluating the second. Where the
first does not run out of steps, the second has the same outcome with as many; where the second does not, the first has the
same outcome with three times as many and two. -/
structure SameUntraced (s : Store) (t u : Code) : Prop where
  forth : ∀ n, Eval.OutOfFuel (evaluate n t .global s) ∨
    SameOutcome (Eval.untraced (evaluate n t .global s)) (Eval.untraced (evaluate n u .global s))
  back : ∀ n, Eval.OutOfFuel (evaluate n u .global s) ∨
    SameOutcome (Eval.untraced (evaluate (3 * n + 2) t .global s)) (Eval.untraced (evaluate n u .global s))

end Lisplet
