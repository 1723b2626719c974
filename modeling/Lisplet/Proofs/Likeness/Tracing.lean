import Lisplet.Proofs.Evaluation.Growth
import Lisplet.Proofs.Likeness.Evaluating
/-!
# Tracing is invisible

An interpreter that traces and one that does not are asked for the same things. Main statement: they cannot be told apart
but by the trace (`tracing_invisible`). All is answered in the same way, and the two are left with the same store, up to the
trace: the same frames, struct types and texts handed out. The trace of the one stays empty at every moment, and that of the
other only grows.

That the trace has no part in evaluation is seen in the view that leaves it out, in which everything else is as it is
(`Value.seen_traceless`, `Store.seen_traceless`).
-/
namespace Lisplet

/-! ## The view that leaves out the trace -/

/-- The view in which everything is seen as it is, except for the trace, which is not seen. -/
def View.traceless : View where
  place := id
  traced := false
  place_place := fun _ => rfl

instance : View.Short .traceless := ⟨fun _ => rfl⟩

mutual

/-- In the view without a trace a value is seen as it is. -/
theorem Value.seen_traceless : (v : Value) → Value.seen .traceless v = v
  | .list items => by rw [Value.seen, Value.seenAll_traceless items]
  | .closure stamp c => by rw [Value.seen, Closure.seen_traceless c]
  | .expander stamp name t => by rw [Value.seen, Transformer.seen_traceless t]
  | .struct stamp type fields => by rw [Value.seen, Value.seenAll_traceless fields]
  | .error stamp code description payload => by rw [Value.seen, Value.seenPayload_traceless payload]
  | .number _ _ | .quaternion _ _ | .string _ _ | .symbol _ | .boolean _ | .structType _ | .builtin _ => rfl

theorem Value.seenAll_traceless : (vs : List Value) → Value.seenAll .traceless vs = vs
  | [] => rfl
  | v :: vs => by rw [Value.seenAll, Value.seen_traceless v, Value.seenAll_traceless vs]

theorem Value.seenPayload_traceless : (p : Option Value) → Value.seenPayload .traceless p = p
  | none => rfl
  | some v => by rw [Value.seenPayload, Value.seen_traceless v]

theorem Closure.seen_traceless : (c : Closure Value) → Closure.seen .traceless c = c
  | ⟨name, params, body, scope⟩ => by rw [Closure.seen, Term.seenAll_traceless body]

theorem Transformer.seen_traceless : (t : Transformer Value) → Transformer.seen .traceless t = t
  | .template params body scope => by rw [Transformer.seen, Term.seen_traceless body]
  | .rule pattern template => by rw [Transformer.seen, Term.seenAll_traceless pattern, Term.seen_traceless template]

theorem Term.seen_traceless : (t : Code) → Term.seen .traceless t = t
  | .list pos ts => by rw [Term.seen, Term.seenAll_traceless ts]; rfl
  | .marked pos m t => by rw [Term.seen, Term.seen_traceless t]; rfl
  | .format pos ps => by rw [Term.seen, Part.seenAll_traceless ps]; rfl
  | .embedded pos v => by rw [Term.seen, Value.seen_traceless v]; rfl
  | .number _ _ | .string _ _ | .symbol _ _ | .boolean _ _ | .nil _ => rfl

theorem Term.seenAll_traceless : (ts : List Code) → Term.seenAll .traceless ts = ts
  | [] => rfl
  | t :: ts => by rw [Term.seenAll, Term.seen_traceless t, Term.seenAll_traceless ts]

theorem Part.seen_traceless : (p : Part Value) → Part.seen .traceless p = p
  | .text _ => rfl
  | .code t => by rw [Part.seen, Term.seen_traceless t]

theorem Part.seenAll_traceless : (ps : List (Part Value)) → Part.seenAll .traceless ps = ps
  | [] => rfl
  | p :: ps => by rw [Part.seenAll, Part.seen_traceless p, Part.seenAll_traceless ps]

end

theorem Signal.seen_traceless (e : Signal) : e.seen .traceless = e := by
  cases e with
  | fault f =>
    have hpayload : f.payload.map (Value.seen .traceless) = f.payload := by
      rw [← Value.seenPayload_eq_map, Value.seenPayload_traceless]
    have hposition : f.position.map View.traceless.place = f.position := by cases f.position <;> rfl
    simp only [Signal.seen, Fault.seen, hpayload, hposition]
  | _ => rfl

/-- The trace is no part of the frames. -/
theorem Frames.seen_traceless (f : Frames Value) : f.seen .traceless = f := by
  have hbindings : Bindings.through (Value.seen .traceless) = id := by
    funext b
    rw [Bindings.through, funext Value.seen_traceless]
    exact List.map_id b
  rw [Frames.seen, hbindings, Array.map_id]

/-- A store as if it had never been traced. -/
def Store.untraced (s : Store) : Store :=
  { s with tracing := false, log := s.log.filter fun e => e.trace?.isNone }

/-- A store without its trace is the store that was never traced. -/
theorem Store.seen_traceless (s : Store) : s.seen .traceless = s.untraced := by
  rw [Store.seen, Frames.seen_traceless]
  rfl

namespace Store

/-- Reading the log for anything but the trace. -/
theorem filterMap_untraced {f : Emission → Option String} (hf : ∀ line, f (.trace line) = none) (s : Store) :
    s.untraced.log.toList.filterMap f = s.log.toList.filterMap f := by
  have hkept : (fun e : Emission => if e.trace?.isNone = true then f e else none) = f := by
    funext e
    cases e with
    | trace line => exact (hf line).symm
    | _ => rfl
  rw [untraced, Array.toList_filter, List.filterMap_filter, hkept]

/-- The trace is no part of the output. -/
theorem outputText_untraced (s : Store) : s.untraced.outputText = s.outputText :=
  congrArg String.join (filterMap_untraced (fun _ => rfl) s)

theorem errorText_untraced (s : Store) : s.untraced.errorText = s.errorText :=
  congrArg String.join (filterMap_untraced (fun _ => rfl) s)

/-- A store that does not trace and has no trace is as if it had never been traced. -/
theorem untraced_eq_self {s : Store} (htracing : s.tracing = false) (hlines : s.traceLines = []) : s.untraced = s := by
  have hlog : s.log.filter (fun e => e.trace?.isNone) = s.log := by
    refine Array.filter_eq_self.2 fun e he => ?_
    simpa using List.filterMap_eq_nil_iff.1 hlines e (Array.mem_toList_iff.2 he)
  rw [untraced, hlog, ← htracing]

end Store

/-! ## What an interpreter is asked for -/

/-- Something an interpreter is asked to do. -/
inductive Request where
  | run (forms : List Code) (scope : Scope)
  | source (text : String) (scope : Scope)
  | apply (f : Value) (args : List Value)
  | load (file : String)
  | bind (name : String) (v : Value)

/-- Does what is asked. What has no value of its own has the empty list. -/
def Recursion.answer (r : Recursion) : Request → Eval Value
  | .run forms scope => r.evaluateForms scope forms
  | .source text scope => r.evaluateSource scope text
  | .apply f args => r.apply f args
  | .load file => do
    r.importFile file
    return .nil
  | .bind name v => do
    Eval.define .global name v
    return .nil

/-- How an action ends, if it ends with a result, a fault or an exit; a run that is cut off stays so. -/
def Eval.ending {α : Type} (act : Eval α) : Eval (Except Signal α) := fun s =>
  match act s with
  | .ok a s' => .ok (.ok a) s'
  | .error (.fault f) s' => .ok (.error (.fault f)) s'
  | .error (.exit status) s' => .ok (.error (.exit status)) s'
  | .error e s' => .error e s'

/-- Does what is asked, one thing after the other in one store, however each of them ends. -/
def Recursion.serve (r : Recursion) : List Request → Eval (List (Except Signal Value))
  | [] => pure []
  | q :: qs => do
    let outcome ← Eval.ending (r.answer q)
    let outcomes ← r.serve qs
    return outcome :: outcomes

/-- What an action ends with, apart from the store. -/
def Eval.outcome {α : Type} : EStateM.Result Signal Store α → Except Signal α
  | .ok a _ => .ok a
  | .error e _ => .error e

/-! ## What is asked of interpreters that are alike -/

/-- Alike actions end in the same way, and both are cut off if one is. -/
theorem Alike.ending {α : Type} {act act' : Eval α} (h : Alike (.exactly .traceless) id id act act') :
    Alike (.exactly .traceless) id id (Eval.ending act) (Eval.ending act') := by
  intro s s' hs
  have hact := (h s s' hs).agree
  refine Agree.compares ?_
  unfold Eval.ending
  generalize act s = x at *
  generalize act' s' = y at *
  cases hact with
  | ok ha ht => exact .ok (congrArg Except.ok ha) ht
  | @error e e' t t' he ht =>
    rw [Signal.seen_traceless, Signal.seen_traceless] at he
    subst he
    cases e with
    | fault f => exact .ok rfl ht
    | exit status => exact .ok rfl ht
    | waiting q => exact .error rfl ht
    | outOfFuel => exact .error rfl ht

theorem alike_answer {r : Recursion} (hr : r.Respects (.exactly .traceless) r) (q : Request) :
    Alike (.exactly .traceless) id id (r.answer q) (r.answer q) := by
  have hseen : Value.seen .traceless = id := funext Value.seen_traceless
  have hplain {act : Eval Value} (h : Alike (.exactly .traceless) (Value.seen .traceless) (Value.seen .traceless) act act) :
      Alike (.exactly .traceless) id id act act := by rwa [hseen] at h
  cases q with
  | run forms scope => exact hplain (alike_evaluateForms hr scope (Term.likeAll_of_map rfl))
  | source text scope => exact hplain (alike_evaluateSource scope hr text)
  | apply f args => exact hplain (hr.apply rfl rfl)
  | load file => exact .bindId (alike_importFile hr file) fun _ => .pure rfl
  | bind name v => exact .bindId (.define .global name rfl) fun _ => .pure rfl

/-- Requests that are answered alike one by one are so in a row, since each leaves alike stores behind. -/
theorem alike_serve {r : Recursion} (hr : r.Respects (.exactly .traceless) r) (requests : List Request) :
    Alike (.exactly .traceless) id id (r.serve requests) (r.serve requests) := by
  induction requests with
  | nil => exact .pure rfl
  | cons q qs ih => exact .bindId (alike_answer hr q).ending fun _ => .bindId ih fun _ => .pure rfl

/-- Ends that agree up to the trace have the same outcome and the same store up to the trace. -/
theorem Agree.traceless {α : Type} {x y : EStateM.Result Signal Store α}
    (h : Agree .traceless (Store.seen .traceless) id x y) :
    Eval.outcome x = Eval.outcome y ∧ (Eval.final x).untraced = (Eval.final y).untraced := by
  cases h with
  | ok ha hs =>
    rw [Store.seen_traceless, Store.seen_traceless] at hs
    exact ⟨congrArg Except.ok ha, hs⟩
  | error he hs =>
    rw [Store.seen_traceless, Store.seen_traceless] at hs
    rw [Signal.seen_traceless, Signal.seen_traceless] at he
    exact ⟨congrArg Except.error he, hs⟩

/-! ## The trace of what is asked -/

/-- To say how an action ends does not change where it leads. -/
theorem Eval.final_ending {α : Type} (act : Eval α) (s : Store) :
    Eval.final (Eval.ending act s) = Eval.final (act s) := by
  unfold Eval.ending
  cases act s with
  | ok a m => rfl
  | error e m => cases e <;> rfl

/-- An action that leaves the trace as it is where there is no tracing. -/
def Eval.Untracing {α : Type} (act : Eval α) : Prop :=
  ∀ s, s.tracing = false → (final (act s)).tracing = false ∧ (final (act s)).traceLines = s.traceLines

namespace Eval.Untracing

variable {α β : Type}

theorem of_runs {own : Nat} {act : Eval α} (h : Runs own act) : Untracing act := fun s hs =>
  ⟨(tracing_moves (h s)).trans hs, traceLines_moves (h s) hs⟩

theorem bind {act : Eval α} {f : α → Eval β} (h : Untracing act) (hf : ∀ a, Untracing (f a)) :
    Untracing (act >>= f) := by
  intro s hs
  obtain ⟨htracing, hlines⟩ := h s hs
  cases hact : act s with
  | ok a m =>
    rw [hact] at htracing hlines
    obtain ⟨htracing', hlines'⟩ := hf a m htracing
    rw [EStateM.bind_of_ok hact]
    exact ⟨htracing', hlines'.trans hlines⟩
  | error e m =>
    rw [hact] at htracing hlines
    rw [EStateM.bind_of_error hact]
    exact ⟨htracing, hlines⟩

theorem ending {act : Eval α} (h : Untracing act) : Untracing (Eval.ending act) := fun s => by
  rw [final_ending]
  exact h s

end Eval.Untracing

theorem untracing_answer {r : Recursion} (hr : r.Confined) (q : Request) : (r.answer q).Untracing := by
  cases q with
  | run forms scope => exact .of_runs ((hr.relatedIn scope).evaluateForms forms)
  | source text scope => exact .of_runs (runs_evaluateSource hr scope text)
  | apply f args => exact .of_runs (hr.apply 0 f args)
  | load file => exact .of_runs (.bind (runs_importFile hr file : Runs 0 _) fun _ => .pure _)
  | bind name v => exact .of_runs (.bind (.define .global name v) fun _ => .pure _)

/-- An interpreter that does not trace has no trace however much it is asked for. -/
theorem untracing_serve {r : Recursion} (hr : r.Confined) (requests : List Request) : (r.serve requests).Untracing := by
  induction requests with
  | nil => exact .of_runs (.pure _ : Runs 0 _)
  | cons q qs ih =>
    exact (untracing_answer hr q).ending.bind fun _ => ih.bind fun _ => .of_runs (.pure _ : Runs 0 _)

theorem Eval.Precedes.ending {α : Type} {act act' : Eval α} (h : Precedes act act') :
    Precedes (Eval.ending act) (Eval.ending act') := by
  intro s
  rw [final_ending]
  refine (h s).imp_right fun hstops => hstops.imp (fun heq => ?_) ?_
  · unfold Eval.ending
    rw [heq]
  · rintro ⟨m, hm, hlog⟩
    exact ⟨m, by unfold Eval.ending; rw [hm], hlog⟩

/-- Where evaluation is cut off earlier than another, so is whatever is asked for. -/
theorem precedes_answer {r r' : Recursion} (h : r.Related (fun α => Eval.Precedes (α := α)) r') (q : Request) :
    Eval.Precedes (r.answer q) (r'.answer q) := by
  have hR := congruence_precedes
  cases q with
  | run forms scope => exact (h.relatedIn hR scope).evaluateForms forms
  | source text scope => exact related_evaluateSource hR h scope text
  | apply f args => exact h.apply f args
  | load file => exact hR.bind (precedes_importFile h file) fun _ => hR.pure _
  | bind name v => exact hR.bind (hR.same _ (.define .global name v)) fun _ => hR.pure _

theorem precedes_serve {r r' : Recursion} (h : r.Related (fun α => Eval.Precedes (α := α)) r') (requests : List Request) :
    Eval.Precedes (r.serve requests) (r'.serve requests) := by
  have hR := congruence_precedes
  induction requests with
  | nil => exact hR.pure _
  | cons q qs ih => exact hR.bind (precedes_answer h q).ending fun _ => hR.bind ih fun _ => hR.pure _

/-- Tracing is invisible to programs. Two interpreters that are set up in the same world and differ in the option to trace
only are asked for the same things. Everything has the same outcome, and the two are left with the same store, but for the
trace; in particular with the same texts handed out, the same struct types and the same frames. At every moment, which is
where a condition on the store halts evaluation, the trace of the interpreter that does not trace is empty; and of two moments
of the one that traces, the later one has all that was logged at the earlier one. -/
theorem tracing_invisible (world : World) (options : Options) (requests : List Request) :
    let plain := Store.initial world { options with tracing := false }
    let traced := Store.initial world { options with tracing := true }
    let plainEnd := evaluator.serve requests plain
    let tracedEnd := evaluator.serve requests traced
    Eval.outcome plainEnd = Eval.outcome tracedEnd ∧
      Eval.final plainEnd = (Eval.final tracedEnd).untraced ∧
      (Eval.final plainEnd).outputText = (Eval.final tracedEnd).outputText ∧
      (Eval.final plainEnd).errorText = (Eval.final tracedEnd).errorText ∧
      (Eval.final plainEnd).registry = (Eval.final tracedEnd).registry ∧
      (Eval.final plainEnd).frames = (Eval.final tracedEnd).frames ∧
      (∀ halt, (Eval.final ((haltingEvaluator halt).serve requests plain)).traceLines = []) ∧
      ∀ halt later : Store → Bool,
        (Eval.final ((haltingEvaluator fun s => halt s || later s).serve requests traced)).log.toList <+:
          (Eval.final ((haltingEvaluator later).serve requests traced)).log.toList := by
  intro plain traced plainEnd tracedEnd
  -- To begin with the two stores differ in the option alone.
  have hstart : plain.seen .traceless = traced.seen .traceless := by
    rw [Store.seen_traceless, Store.seen_traceless]
    rfl
  obtain ⟨houtcome, hend⟩ := (alike_serve (respects_evaluate .traceless fuel) requests plain traced hstart).agree.traceless
  obtain ⟨htracing, hlines⟩ := untracing_serve (confined_evaluate fuel) requests plain rfl
  have hfinal : Eval.final plainEnd = (Eval.final tracedEnd).untraced :=
    (Store.untraced_eq_self htracing hlines).symm.trans hend
  refine ⟨houtcome, hfinal, ?_, ?_, by rw [hfinal]; rfl, by rw [hfinal]; rfl, ?_, ?_⟩
  · rw [hfinal, Store.outputText_untraced]
  · rw [hfinal, Store.errorText_untraced]
  · intro halt
    exact (untracing_serve (confined_haltingEvaluator halt) requests plain rfl).2
  · intro halt later
    have hle : ∀ s, later s = true → (halt s || later s) = true := fun s hs => by rw [hs, Bool.or_true]
    exact (precedes_serve (precedes_halting hle fuel) requests).logged traced

end Lisplet
