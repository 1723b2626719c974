import Lisplet.Proofs.Likeness.Evaluating
/-!
# Programs that differ in places only

Two rows of terms that are equal up to places are run from two fresh interpreters that are set up in the same way. The runs
cannot be told apart: they hand out the same text and the same trace, register the same struct types, and end in the same
way (`sameRun_of_seen`). Two runs of this kind go side by side in the blind view, in which all places are one, and what a
view leaves as it is is the same in both (`SameRun.of_agree`).
-/
namespace Lisplet

/-- Stores that have handed out the same and know the same struct types. -/
structure Store.ShowsAs (s s' : Store) : Prop where
  output : s.outputText = s'.outputText
  errorOutput : s.errorText = s'.errorText
  trace : s.traceLines = s'.traceLines
  types : s.registry.types = s'.registry.types

theorem Store.ShowsAs.symm {s t : Store} (h : s.ShowsAs t) : t.ShowsAs s where
  output := h.output.symm
  errorOutput := h.errorOutput.symm
  trace := h.trace.symm
  types := h.types.symm

theorem Store.ShowsAs.trans {s t u : Store} (h : s.ShowsAs t) (h' : t.ShowsAs u) : s.ShowsAs u where
  output := h.output.trans h'.output
  errorOutput := h.errorOutput.trans h'.errorOutput
  trace := h.trace.trans h'.trace
  types := h.types.trans h'.types

/-- Faults with the same code, description and detail, that carry the same value up to places. -/
structure Fault.SaysAs (f f' : Fault) : Prop where
  code : f.code = f'.code
  description : f.description = f'.description
  detail : f.detail = f'.detail
  payload : f.payload.map (Value.seen .blind) = f'.payload.map (Value.seen .blind)

/-- Runs that end in the same way and show the same. Values are the same up to the places inside them. -/
inductive SameRun : EStateM.Result Signal Store Value → EStateM.Result Signal Store Value → Prop
  | value {v v' : Value} {s s' : Store} : v.seen .blind = v'.seen .blind → s.ShowsAs s' → SameRun (.ok v s) (.ok v' s')
  | fault {f f' : Fault} {s s' : Store} : f.SaysAs f' → s.ShowsAs s' →
      SameRun (.error (.fault f) s) (.error (.fault f') s')
  | exit (status : Float) {s s' : Store} : s.ShowsAs s' → SameRun (.error (.exit status) s) (.error (.exit status) s')
  | waiting (q : Question) {s s' : Store} : s.ShowsAs s' → SameRun (.error (.waiting q) s) (.error (.waiting q) s')
  | outOfFuel {s s' : Store} : s.ShowsAs s' → SameRun (.error .outOfFuel s) (.error .outOfFuel s')

theorem Store.showsAs_of_seen {s s' : Store} (h : s.seen .blind = s'.seen .blind) : s.ShowsAs s' := by
  have hlog : s.log = s'.log := (congrArg Store.log h : (s.seen .blind).log = (s'.seen .blind).log)
  have hregistry : s.registry = s'.registry := Store.eq_of_seen Store.registry h fun _ _ => rfl
  constructor
  · rw [Store.outputText, Store.outputText, hlog]
  · rw [Store.errorText, Store.errorText, hlog]
  · rw [Store.traceLines, Store.traceLines, hlog]
  · rw [hregistry]

theorem Fault.saysAs_of_seen {f f' : Fault} (h : f.seen .blind = f'.seen .blind) : f.SaysAs f' where
  code := (congrArg Fault.code h : (f.seen .blind).code = (f'.seen .blind).code)
  description := (congrArg Fault.description h : (f.seen .blind).description = (f'.seen .blind).description)
  detail := (congrArg Fault.detail h : (f.seen .blind).detail = (f'.seen .blind).detail)
  payload := (congrArg Fault.payload h : (f.seen .blind).payload = (f'.seen .blind).payload)

/-- Ends that agree in the blind view are ends of the same run. -/
theorem SameRun.of_agree {x y : EStateM.Result Signal Store Value}
    (h : Agree .blind (Store.seen .blind) (Value.seen .blind) x y) : SameRun x y := by
  cases h with
  | ok hv hs => exact .value hv (Store.showsAs_of_seen hs)
  | @error e e' s s' he hs =>
    have hshows := Store.showsAs_of_seen hs
    -- Only a fault is seen otherwise than it is, and it is seen as a fault.
    cases e with
    | fault f =>
      cases e' with
      | fault f' => exact .fault (Fault.saysAs_of_seen (Signal.fault.inj he)) hshows
      | _ => cases he
    | exit status =>
      cases e' with
      | exit status' =>
        obtain rfl : status = status' := Signal.exit.inj he
        exact .exit status hshows
      | _ => cases he
    | waiting q =>
      cases e' with
      | waiting q' =>
        obtain rfl : q = q' := Signal.waiting.inj he
        exact .waiting q hshows
      | _ => cases he
    | outOfFuel =>
      cases e' with
      | outOfFuel => exact .outOfFuel hshows
      | _ => cases he

/-- Forms that are the same up to places, evaluated in one store, end the same up to places. -/
theorem agree_evaluateForms {ts ts' : List Code} (h : ts.map (Term.seen .blind) = ts'.map (Term.seen .blind)) (n : Nat)
    (scope : Scope) (s : Store) :
    Agree .blind (Store.seen .blind) (Value.seen .blind)
      (Recursion.evaluateForms ⟨evaluate n, apply n⟩ scope ts s)
      (Recursion.evaluateForms ⟨evaluate n, apply n⟩ scope ts' s) :=
  (alike_evaluateForms (respects_evaluate .blind n) scope (Term.likeAll_of_map h) s s rfl).agree

/-- Programs that are equal up to places, run from fresh interpreters with the same options in the same world, hand out
the same output, error output and trace, register the same struct types and end in the same way. -/
theorem sameRun_of_seen {ts ts' : List Code} (h : ts.map (Term.seen .blind) = ts'.map (Term.seen .blind))
    (world : World) (options : Options) :
    SameRun (evaluator.evaluateForms .global ts (.initial world options))
      (evaluator.evaluateForms .global ts' (.initial world options)) :=
  .of_agree (agree_evaluateForms h fuel .global _)

/-- The program `(display "on") (lambda (x) x)`, written at one place. -/
def displayAndClose (p : Position) : List Code :=
  [.list p [.symbol p "display", .string p "on"],
    .list p [.symbol p "lambda", .list p [.symbol p "x"], .symbol p "x"]]

theorem sameRun_of_seen_displayAndClose :
    displayAndClose ⟨1, 1⟩ ≠ displayAndClose ⟨2, 5⟩ ∧
      SameRun (evaluator.evaluateForms .global (displayAndClose ⟨1, 1⟩) (.initial (.closed "/" [] []) {}))
        (evaluator.evaluateForms .global (displayAndClose ⟨2, 5⟩) (.initial (.closed "/" [] []) {})) := by
  have hseen : (displayAndClose ⟨1, 1⟩).map (Term.seen .blind) = (displayAndClose ⟨2, 5⟩).map (Term.seen .blind) := rfl
  exact ⟨by simp [displayAndClose], sameRun_of_seen hseen _ _⟩

end Lisplet
