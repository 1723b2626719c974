import Lisplet.Proofs.Evaluation.Congruence
import Lisplet.Proofs.Evaluation.Halting
/-!
# The log only grows

Nothing that a run has handed out is taken back: the log of a store is a prefix of the log of every store that moves of a run
lead to (`log_moves`), and as long as it is not tracing, a run adds nothing to the trace (`traceLines_moves`).

The same holds between two moments of one run. Evaluation that is halted by a condition is compared with evaluation that is
halted by one that holds later, if ever: either both come to the same end, or the first has stopped at a moment after which
the second went on, with nothing less in the log (`Eval.Precedes`). Evaluation passes this on (`congruence_precedes`), and so
it holds of halted evaluation as a whole (`precedes_halting`).
-/
namespace Lisplet

/-! ## What moves do to the log -/

/-- A run does not begin or end to trace. -/
theorem tracing_moves {own : Nat} {s s' : Store} (h : Moves own s s') : s'.tracing = s.tracing := by
  induction h with
  | trans _ _ ih₁ ih₂ => exact ih₂.trans ih₁
  | inner _ ih | globally _ ih | calling _ _ ih | importing _ _ _ ih => exact ih
  | _ => rfl

theorem log_moves {own : Nat} {s s' : Store} (h : Moves own s s') : s.log.toList <+: s'.log.toList := by
  induction h with
  | trans _ _ ih₁ ih₂ => exact ih₁.trans ih₂
  | inner _ ih | globally _ ih | calling _ _ ih | importing _ _ _ ih => exact ih
  | log s _ =>
    rw [Array.toList_push]
    exact List.prefix_append _ _
  | _ => exact List.prefix_refl _

theorem traceLines_moves {own : Nat} {s s' : Store} (h : Moves own s s') (hs : s.tracing = false) :
    s'.traceLines = s.traceLines := by
  induction h with
  | trans h _ ih₁ ih₂ => exact (ih₂ ((tracing_moves h).trans hs)).trans (ih₁ hs)
  | inner _ ih | globally _ ih | calling _ _ ih | importing _ _ _ ih => exact ih hs
  | log s he =>
    have hnone := he.resolve_right (by simp [hs])
    simp [Store.traceLines, hnone]
  | _ => rfl

/-! ## Two moments of one run -/

/-- The second action does not take back what was logged, and the first does the same, or it stops at a moment after which
the second takes back nothing. -/
def Eval.Precedes {α : Type} (act act' : Eval α) : Prop :=
  ∀ s, s.log.toList <+: (Eval.final (act' s)).log.toList ∧
    (act s = act' s ∨ ∃ m, act s = .error .outOfFuel m ∧ m.log.toList <+: (Eval.final (act' s)).log.toList)

namespace Eval.Precedes

variable {α β : Type}

theorem of_runs (own : Nat) {act : Eval α} (h : Runs own act) : Precedes act act := fun s => ⟨log_moves (h s), .inl rfl⟩

theorem bind {act act' : Eval α} {f f' : α → Eval β} (h : Precedes act act') (hf : ∀ a, Precedes (f a) (f' a)) :
    Precedes (act >>= f) (act' >>= f') := by
  intro s
  obtain ⟨hgrows, hstops⟩ := h s
  -- What the second action ends with is not taken back by what it goes on with.
  have hend : (final (act' s)).log.toList <+: (final ((act' >>= f') s)).log.toList := by
    cases hact : act' s with
    | ok a m =>
      rw [EStateM.bind_of_ok hact]
      exact (hf a m).1
    | error e m =>
      rw [EStateM.bind_of_error hact]
      exact List.prefix_refl _
  refine ⟨hgrows.trans hend, ?_⟩
  rcases hstops with heq | ⟨m, hm, hlog⟩
  · cases hact : act' s with
    | ok a m =>
      rw [EStateM.bind_of_ok hact, EStateM.bind_of_ok (heq.trans hact)]
      exact (hf a m).2
    | error e m =>
      rw [EStateM.bind_of_error hact, EStateM.bind_of_error (heq.trans hact)]
      exact .inl rfl
  · exact .inr ⟨m, EStateM.bind_of_error hm f, hlog.trans hend⟩

theorem catching {body body' : Eval Value} {handle handle' : Fault → Eval Value} (hb : Precedes body body')
    (hh : ∀ f, Precedes (handle f) (handle' f)) :
    Precedes (Recursion.catching body handle) (Recursion.catching body' handle') := by
  intro s
  obtain ⟨hgrows, hstops⟩ := hb s
  have hend : (final (body' s)).log.toList <+: (final (Recursion.catching body' handle' s)).log.toList := by
    unfold Recursion.catching
    split
    next f m hbody =>
      rw [hbody]
      exact (hh f m).1
    next => exact List.prefix_refl _
  refine ⟨hgrows.trans hend, ?_⟩
  rcases hstops with heq | ⟨m, hm, hlog⟩
  · unfold Recursion.catching
    rw [heq]
    split
    next f m _ => exact (hh f m).2
    next => exact .inl rfl
  · exact .inr ⟨m, by unfold Recursion.catching; rw [hm], hlog.trans hend⟩

/-- An action between two changes of the store that leave the log as it is. -/
theorem between {act act' : Eval α} (h : Precedes act act') (enter leave : Store → Store → Store)
    (henter : ∀ s t, (enter s t).log = t.log) (hleave : ∀ s t, (leave s t).log = t.log)
    {run : Eval α → Eval α} (hrun : ∀ act s, run act s =
      match act (enter s s) with
      | .ok a t => .ok a (leave s t)
      | .error e t => .error e (leave s t)) : Precedes (run act) (run act') := by
  intro s
  have hend : (final (run act' s)).log = (final (act' (enter s s))).log := by
    rw [hrun]
    cases act' (enter s s) <;> exact hleave s _
  obtain ⟨hgrows, hstops⟩ := h (enter s s)
  rw [henter] at hgrows
  rw [hend]
  refine ⟨hgrows, hstops.imp (fun heq => by rw [hrun, hrun, heq]) ?_⟩
  rintro ⟨m, hm, hlog⟩
  exact ⟨leave s m, by rw [hrun, hm], by rwa [hleave]⟩

theorem withCaller (scope : Scope) {act act' : Eval α} (h : Precedes act act') :
    Precedes (Eval.withCaller scope act) (Eval.withCaller scope act') :=
  h.between (fun _ t => { t with caller := scope }) (fun s t => { t with caller := s.caller }) (fun _ _ => rfl)
    (fun _ _ => rfl) fun _ _ => rfl

theorem withImport (path : String) {act act' : Eval α} (h : Precedes act act') :
    Precedes (Eval.withImport path act) (Eval.withImport path act') :=
  h.between (fun _ t => { t with directory := Path.parent path, importing := path :: t.importing })
    (fun s t => { t with directory := s.directory, importing := t.importing.erase path }) (fun _ _ => rfl)
    (fun _ _ => rfl) fun _ _ => rfl

theorem haltIf {early late : Store → Bool} (h : ∀ s, late s = true → early s = true) :
    Precedes (Eval.haltIf early) (Eval.haltIf late) := by
  intro s
  have hend : final (Eval.haltIf late s) = s := by
    unfold Eval.haltIf
    split <;> rfl
  rw [hend]
  refine ⟨List.prefix_refl _, ?_⟩
  by_cases hearly : early s = true
  · exact .inr ⟨s, if_pos hearly, List.prefix_refl _⟩
  · exact .inl ((if_neg hearly).trans (if_neg (mt (h s) hearly)).symm)

theorem haltAround {early late : Store → Bool} (h : ∀ s, late s = true → early s = true) {act act' : Eval α}
    (hact : Precedes act act') : Precedes (Eval.haltAround early act) (Eval.haltAround late act') :=
  .bind (.haltIf h) fun _ => .bind hact fun a => .bind (.haltIf h) fun _ => .of_runs 0 (.pure a)

/-- What was logged when the first action ended was logged when the second did. -/
theorem logged {act act' : Eval α} (h : Precedes act act') (s : Store) :
    (final (act s)).log.toList <+: (final (act' s)).log.toList := by
  rcases (h s).2 with heq | ⟨m, hm, hlog⟩
  · exact heq ▸ List.prefix_refl _
  · rw [hm]
    exact hlog

end Eval.Precedes

open Eval (Precedes)

/-- Evaluation passes on that an action precedes another. -/
theorem congruence_precedes : Eval.Congruence fun α => Precedes (α := α) where
  same own _ h := .of_runs own h
  bind := .bind
  catching := .catching
  withCaller := .withCaller

section Parts

variable {r r' : Recursion} (h : r.Related (fun α => Precedes (α := α)) r')
include h

theorem precedes_importFile (file : String) : Precedes (r.importFile file) (r'.importFile file) := by
  have hR := congruence_precedes
  refine hR.bind (hR.same 0 .get) fun s => related_ite (hR.trace _) ?_
  refine hR.bind (hR.same 0 (.readFile _)) fun text => hR.bind (hR.trace _) fun _ =>
    hR.bind (.withImport _ ?_) fun _ => hR.pure _
  exact related_evaluateSource hR h .global text

theorem precedes_importForm (scope : Scope) (operands : List Code) :
    Precedes (Direct.importForm r scope operands) (Direct.importForm r' scope operands) := by
  have hR := congruence_precedes
  exact hR.bind (hR.ofExcept _) fun t => hR.bind (h.evaluate t scope) fun _ => hR.bind (hR.ofExcept _) fun file =>
    hR.bind (precedes_importFile h file) fun _ => hR.pure _

end Parts

/-- Of two conditions, let the first hold whenever the second does. Evaluation halted by the first precedes evaluation halted
by the second. -/
theorem precedes_halting {early late : Store → Bool} (hle : ∀ s, late s = true → early s = true) (n : Nat) :
    Recursion.Related (fun α => Precedes (α := α)) ⟨haltingEvaluate early n, haltingApply early n⟩
      ⟨haltingEvaluate late n, haltingApply late n⟩ := by
  induction n with
  | zero => exact ⟨fun _ _ => .of_runs 0 (.throw _), fun _ _ => .of_runs 0 (.throw _)⟩
  | succ n ih =>
    constructor
    · intro t scope
      show Precedes (haltingEvaluate early (n + 1) t scope) (haltingEvaluate late (n + 1) t scope)
      rw [haltingEvaluate_succ, haltingEvaluate_succ]
      exact .haltAround hle (related_evaluateTerm congruence_precedes ih scope t fun operands _ =>
        precedes_importForm ih scope operands)
    · intro f args
      show Precedes (haltingApply early (n + 1) f args) (haltingApply late (n + 1) f args)
      rw [haltingApply, haltingApply, Direct.applyValue_eq_call, Direct.applyValue_eq_call]
      exact .haltAround hle (related_call congruence_precedes ih .global none f args)

end Lisplet
