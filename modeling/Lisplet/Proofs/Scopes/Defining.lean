import Lisplet.Proofs.Equality.Values
import Lisplet.Proofs.Evaluation.Frames
import Lisplet.Proofs.Scopes.Lexical
import Lisplet.Proofs.Structs.Definitions
/-!
# Defining a name for a value

A definition evaluates its term and binds the name in the own frame of the scope, which is where the name is found first.
What is bound is the value, whatever else holds it, with one exception: a procedure without a name is bound as a copy that has
the name and a stamp of its own (`Value.underName`). The procedure stays without a name wherever else it is held.

Main statement: `lookup?_definition`.
-/
namespace Lisplet

/-- The definition of a name by a term. -/
def definition (pos wordPos namePos : Position) (name : String) (t : Code) : Code :=
  .list pos [.symbol wordPos "define", .symbol namePos name, t]

namespace Value

/-- Whether a value is a procedure that has no name. -/
def isAnonymous : Value → Bool
  | closure _ c => c.name.isNone
  | _ => false

/-- What a name is bound to when it is defined by a value; `stamp` marks the copy if there is one. -/
def underName (name : String) (stamp : Stamp) : Value → Value
  | closure _ ⟨none, params, body, scope⟩ => closure stamp ⟨some name, params, body, scope⟩
  | v => v

variable (name : String) (stamp : Stamp)

theorem underName_of_named {v : Value} (h : v.isAnonymous = false) : v.underName name stamp = v := by
  cases v with
  | closure own c =>
    obtain ⟨_ | old, params, body, scope⟩ := c
    · cases h
    · rfl
  | _ => rfl

theorem underName_of_anonymous {own : Stamp} {c : Closure Value} (h : c.name = none) :
    (closure own c).underName name stamp = closure stamp { c with name := some name } := by
  obtain ⟨_, params, body, scope⟩ := c
  cases h
  rfl

end Value

/-- Only the copy of a procedure takes a stamp. -/
theorem named_apply (name : String) (v : Value) (s : Store) :
    ∃ next, Recursion.named name v s = .ok (v.underName name s.nextStamp) { s with nextStamp := next } := by
  cases v with
  | closure stamp c =>
    obtain ⟨_ | own, params, body, scope⟩ := c
    · exact ⟨s.nextStamp + 1, rfl⟩
    · exact ⟨s.nextStamp, rfl⟩
  | _ => exact ⟨s.nextStamp, rfl⟩

/-- In its own scope a name means what was bound to it last. -/
theorem Frames.lookup?_bind {ν : Type} (f : Frames ν) {scope : Scope} (h : scope.own < f.size) (name : String) (v : ν) :
    (f.bind scope name v).lookup? scope name = some v :=
  lookup?_put_of_exposes h v ⟨[], scope.outer, rfl, fun _ hk => absurd hk List.not_mem_nil⟩

variable {n : Nat} {t : Code} {scope : Scope} {s s' : Store} {v : Value} {name : String}

/-- Apart from the name, the definition leaves all frames as the evaluation of its term did. -/
theorem evaluate_definition (hfree : isReserved name = false) (hv : evaluate n t scope s = .ok v s')
    (pos wordPos namePos : Position) : ∃ s'',
    evaluate (n + 1) (definition pos wordPos namePos name t) scope s = .ok .nil s'' ∧
      s''.frames = s'.frames.bind scope name (v.underName name s'.nextStamp) := by
  obtain ⟨next, hnamed⟩ := named_apply name v s'
  obtain ⟨log, hlog⟩ := Eval.trace_eq_ok (fun _ => "Defined " ++ name)
    { s' with nextStamp := next, frames := s'.frames.bind scope name (v.underName name s'.nextStamp) }
  have hform : evaluate (n + 1) (definition pos wordPos namePos name t) scope = (do
      let v ← Recursion.named name (← evaluate n t scope)
      Eval.define scope name v
      Eval.trace fun _ => "Defined " ++ name
      return .nil) := evaluate_succ ..
  refine ⟨{ s' with
    nextStamp := next
    frames := s'.frames.bind scope name (v.underName name s'.nextStamp)
    log := log }, ?_, rfl⟩
  rw [hform, EStateM.bind_of_ok hv, EStateM.bind_of_ok hnamed, EStateM.bind_of_ok (Eval.define_of_free scope hfree _ _)]
  exact EStateM.bind_of_ok hlog _

/-- A name that is defined by a term means the value of the term from then on, and equals it, unless the value is a procedure
without a name. Of such a procedure it means a copy with the same parameters, body and scope, which has the name and the next
stamp. No other binding changes. -/
theorem lookup?_definition (hscope : scope.own < s.frames.size) (hfree : isReserved name = false)
    (hv : evaluate n t scope s = .ok v s') (hn : v.hasNaN = false) (pos wordPos namePos : Position) : ∃ w s'',
      evaluate (n + 1) (definition pos wordPos namePos name t) scope s = .ok .nil s'' ∧
      s''.frames = s'.frames.bind scope name w ∧ s''.frames.lookup? scope name = some w ∧
      (v.isAnonymous = false → w = v ∧ w.equal v = true) ∧
      ∀ stamp c, v = .closure stamp c → c.name = none → w = .closure s'.nextStamp { c with name := some name } := by
  have hmoves : Moves scope.own s s' := by
    have h : Moves scope.own s (Eval.final (evaluate n t scope s)) := (confined_evaluate n).evaluate t scope s
    rwa [hv] at h
  have hown : scope.own < s'.frames.size := Nat.lt_of_lt_of_le hscope (names_moves hmoves).1
  obtain ⟨s'', hdefined, hframes⟩ := evaluate_definition hfree hv pos wordPos namePos
  refine ⟨v.underName name s'.nextStamp, s'', hdefined, hframes, ?_, fun hnamed => ?_, ?_⟩
  · rw [hframes, Frames.lookup?_bind _ hown]
  · rw [Value.underName_of_named name _ hnamed]
    exact ⟨rfl, v.equal_refl hn⟩
  · rintro stamp c rfl hc
    exact Value.underName_of_anonymous name _ hc

/-- The procedure `(lambda (x) x)`. -/
def anonymous : Closure Value := ⟨none, ["x"], [.symbol .start "x"], .global⟩

/-- The term `(head fs)`. -/
def headOfList : Code := .list .start [.symbol .start "head", .symbol .start "fs"]

/-- A fresh store in which `(define fs (list (lambda (x) x)))` was evaluated. -/
def Store.listed : Store :=
  Eval.final (evaluate 3 (definition .start .start .start "fs" (.list .start [.symbol .start "list",
    .list .start [.symbol .start "lambda", .list .start [.symbol .start "x"], .symbol .start "x"]])) .global .unused)

theorem evaluate_headOfList : evaluate 2 headOfList .global .listed = .ok (.closure 0 anonymous) .listed := rfl

/-- A name that is defined for the procedure in the list means a copy of it, and one for `head` the built-in procedure. -/
theorem lookup?_definition_headOfList :
    (∃ s'', evaluate 3 (definition .start .start .start "f" headOfList) .global .listed = .ok .nil s'' ∧
      s''.frames.lookup? .global "f" = some (.closure 1 ⟨some "f", ["x"], [.symbol .start "x"], .global⟩)) ∧
    ∃ s'', evaluate 2 (definition .start .start .start "first" (.symbol .start "head")) .global .listed = .ok .nil s'' ∧
      s''.frames.lookup? .global "first" = some (.builtin ⟨"head", .exactly 1, .sequence .head⟩) := by
  constructor
  · have hfree : isReserved "f" = false := by decide
    obtain ⟨w, s'', hdefined, -, hw, -, hcopy⟩ :=
      lookup?_definition (by decide) hfree evaluate_headOfList rfl .start .start .start
    exact ⟨s'', hdefined, hw.trans (congrArg some (hcopy 0 anonymous rfl rfl))⟩
  · have hhead : evaluate 1 (.symbol .start "head") .global .listed =
        .ok (.builtin ⟨"head", .exactly 1, .sequence .head⟩) .listed := rfl
    have hfree : isReserved "first" = false := by decide
    obtain ⟨w, s'', hdefined, -, hw, hsame, -⟩ :=
      lookup?_definition (by decide) hfree hhead rfl .start .start .start
    exact ⟨s'', hdefined, hw.trans (congrArg some (hsame rfl).1)⟩

/-- The procedure in the list has no name, and so what is defined by it is not equal to it. -/
theorem not_equal_lookup?_definition : ¬ ∀ (n : Nat) (t : Code) (scope : Scope) (s s' : Store) (v : Value) (name : String),
    scope.own < s.frames.size → isReserved name = false → evaluate n t scope s = .ok v s' → v.hasNaN = false →
      ∃ w s'', evaluate (n + 1) (definition .start .start .start name t) scope s = .ok .nil s'' ∧
        s''.frames.lookup? scope name = some w ∧ w.equal v = true := by
  intro h
  have hfree : isReserved "f" = false := by decide
  obtain ⟨w, s'', hdefined, hw, hequal⟩ :=
    h 2 headOfList .global .listed .listed _ "f" (by decide) hfree evaluate_headOfList rfl
  obtain ⟨t'', hdefined', hframes⟩ := evaluate_definition hfree evaluate_headOfList .start .start .start
  obtain ⟨-, rfl⟩ := EStateM.Result.ok.inj (hdefined.symm.trans hdefined')
  rw [hframes, Frames.lookup?_bind _ (by decide)] at hw
  obtain rfl := Option.some.inj hw
  cases hequal

end Lisplet
