import Lisplet.Proofs.Likeness.Observations
/-!
# Computing procedures on values that are seen

A procedure that only computes gives on seen arguments what it gives on the arguments themselves, seen: the
same value or the same fault, up to the view (`Arithmetic.run_seen`, …, `StructOperation.run_seen`).
-/
namespace Lisplet

variable {w : View} {α β : Type}

/-- A result as it is seen, its value through `g`. -/
def seenResult (w : View) (g : α → β) : Except Fault α → Except Fault β
  | .ok a => .ok (g a)
  | .error f => .error (f.seen w)

@[simp] theorem seenResult_ok (g : α → β) (a : α) : seenResult w g (.ok a) = .ok (g a) := rfl

@[simp] theorem seenResult_error (g : α → β) (f : Fault) : seenResult w g (.error f) = .error (f.seen w) := rfl

@[simp] theorem seenResult_pure (g : α → β) (a : α) : seenResult w g (pure a) = .ok (g a) := rfl

/-- A second look at a fault sees the same in a view that has the same places. -/
theorem Fault.seen_of_seen {v : View} (h : ∀ p, w.place p = v.place p) (f : Fault) : (f.seen v).seen w = f.seen v := by
  obtain ⟨code, description, detail, payload, position⟩ := f
  cases payload <;> cases position <;> simp [Fault.seen, Value.seen_of_seen h, View.place_seen h]

/-- A computation that goes on from what is seen sees what the computation that goes on from the result itself does. -/
theorem bind_seenResult {α' γ : Type} {x : Except Fault α} {k : α → α'} {f : α → Except Fault β}
    {f' : α' → Except Fault γ} {g : β → γ} (h : ∀ a, f' (k a) = seenResult w g (f a)) :
    (seenResult w k x >>= f') = seenResult w g (x >>= f) := by
  cases x with
  | ok a => exact h a
  | error f => rfl

@[simp] theorem Fault.seen_signature (expected found : String) :
    (Fault.signature expected found).seen w = .signature expected found := rfl

@[simp] theorem Fault.seen_arity (expected : String) (found : Nat) :
    (Fault.arity expected found).seen w = .arity expected found := rfl

/-- A result that satisfies `P`, or a fault that carries no value. -/
inductive Unladen (P : α → Prop) : Except Fault α → Prop
  | ok {a : α} : P a → Unladen P (.ok a)
  | error {f : Fault} : f.payload = none → Unladen P (.error f)

namespace Unladen

/-- A computation in two parts carries no value in its fault if neither part does. -/
theorem bind {P : α → Prop} {Q : β → Prop} {x : Except Fault α} {k : α → Except Fault β} (h : Unladen P x)
    (hk : ∀ a, P a → Unladen Q (k a)) : Unladen Q (x >>= k) := by
  cases h with
  | ok ha => exact hk _ ha
  | error hf => exact error hf

/-- The first fault of a row is the fault of one of its elements. -/
theorem mapM {γ : Type} {k : γ → Except Fault α} (hk : ∀ c, Unladen (fun _ => True) (k c)) (cs : List γ) :
    Unladen (fun _ => True) (cs.mapM k) := by
  induction cs with
  | nil => exact ok trivial
  | cons c cs ih =>
    rw [List.mapM_cons]
    exact bind (hk c) fun a _ => bind ih fun as _ => ok trivial

end Unladen

/-- A value without code and other values in it, which every view sees as it is. -/
def Value.Simple (v : Value) : Prop := ∀ w : View, v.seen w = v

/-! ## Arguments -/

namespace Value

/-- An argument of the wrong kind is reported by its type name, with no value in the fault. -/
theorem unladen_asNumber (v : Value) : Unladen (fun _ => True) v.asNumber := by
  cases v with
  | number origin x => exact .ok trivial
  | _ => exact .error rfl

theorem unladen_asNumeric (v : Value) : Unladen (fun _ => True) v.asNumeric := by
  cases v with
  | number origin x => exact .ok trivial
  | quaternion stamp q => exact .ok trivial
  | _ => exact .error rfl

theorem unladen_asString (v : Value) : Unladen (fun _ => True) v.asString := by
  cases v with
  | string origin s => exact .ok trivial
  | _ => exact .error rfl

theorem unladen_asBoolean (v : Value) : Unladen (fun _ => True) v.asBoolean := by
  cases v with
  | boolean b => exact .ok trivial
  | _ => exact .error rfl

/-- A number is a number in every view, and so is what is not one, with the same report. -/
@[simp] theorem asNumber_seen (v : Value) : (v.seen w).asNumber = v.asNumber := by cases v <;> rfl

@[simp] theorem asNumeric_seen (v : Value) : (v.seen w).asNumeric = v.asNumeric := by cases v <;> rfl

@[simp] theorem asString_seen (v : Value) : (v.seen w).asString = v.asString := by cases v <;> rfl

@[simp] theorem asBoolean_seen (v : Value) : (v.seen w).asBoolean = v.asBoolean := by cases v <;> rfl

@[simp] theorem asSymbol_seen (v : Value) : (v.seen w).asSymbol = v.asSymbol := by cases v <;> rfl

theorem seenResult_asString (v : Value) : seenResult w id v.asString = v.asString := by cases v <;> rfl

theorem seenResult_asSymbol (v : Value) : seenResult w id v.asSymbol = v.asSymbol := by cases v <;> rfl

/-- The elements of a list argument are seen as the list is. -/
@[simp] theorem asList_seen (v : Value) : (v.seen w).asList = seenResult w (List.map (seen w)) v.asList := by
  cases v with
  | list items => simp [asList]
  | _ => rfl

end Value

/-- A check that sees no difference sees none in a row of arguments. -/
theorem mapM_seen {f : Value → Except Fault α} (hf : ∀ v, f (v.seen w) = f v) (vs : List Value) :
    (vs.map (Value.seen w)).mapM f = vs.mapM f := by
  induction vs with
  | nil => rfl
  | cons v vs ih => simp only [List.map_cons, List.mapM_cons, hf, ih]

/-- Lists are taken out of a row of arguments as they are seen. -/
theorem mapM_asList_seen (vs : List Value) :
    (vs.map (Value.seen w)).mapM Value.asList =
      seenResult w (List.map (List.map (Value.seen w))) (vs.mapM Value.asList) := by
  induction vs with
  | nil => rfl
  | cons v vs ih =>
    simp only [List.map_cons, List.mapM_cons, Value.asList_seen, ih]
    cases v.asList with
    | error f => rfl
    | ok items => cases vs.mapM Value.asList <;> rfl

@[simp] theorem Builtin.wrongCount_seen (args : List Value) :
    Builtin.wrongCount (args.map (Value.seen w)) = Builtin.wrongCount args := by
  simp [Builtin.wrongCount]

@[simp] theorem seenResult_wrongCount (args : List Value) :
    seenResult w (Value.seen w) (Builtin.wrongCount args) = Builtin.wrongCount args := rfl

/-! ## Families -/

/-- Arithmetic works on numbers, which are the same in every view. -/
theorem Arithmetic.run_seen (op : Arithmetic) (stamp : Stamp) (args : List Value) :
    op.run stamp (args.map (Value.seen w)) = op.run stamp args := by
  have h : op.result (args.map (Value.seen w)) = op.result args := by
    cases op <;> simp only [Arithmetic.result, mapM_seen Value.asNumeric_seen, mapM_seen Value.asNumber_seen]
  rw [Arithmetic.run, Arithmetic.run, h]

theorem Arithmetic.unladen_result (op : Arithmetic) (args : List Value) : Unladen (fun _ => True) (op.result args) := by
  cases op with
  | add => exact .bind (.mapM Value.unladen_asNumeric args) fun _ _ => .ok trivial
  | multiply => exact .bind (.mapM Value.unladen_asNumeric args) fun _ _ => .ok trivial
  | subtract | divide | exponential | logarithm =>
    refine .bind (.mapM Value.unladen_asNumeric args) fun _ _ => ?_
    split <;> first
      | exact .ok trivial
      | exact .error rfl
  | _ =>
    refine .bind (.mapM Value.unladen_asNumber args) fun _ _ => ?_
    split <;> first
      | exact .ok trivial
      | exact .error rfl

/-- A sum or a product has no places in it, and neither has the fault of one. -/
theorem Arithmetic.unladen_run (op : Arithmetic) (stamp : Stamp) (args : List Value) :
    Unladen Value.Simple (op.run stamp args) :=
  .bind (unladen_result op args) fun x _ => .ok fun _ => by cases x <;> rfl

theorem Logic.compare_seen (test : Float → Float → Bool) (args : List Value) :
    Logic.compare test (args.map (Value.seen w)) = Logic.compare test args := by
  rcases args with _ | ⟨a, _ | ⟨b, _ | ⟨c, rest⟩⟩⟩ <;> simp [Logic.compare, Builtin.wrongCount]

/-- Comparisons and connectives look at numbers and truth values, and equality sees no places. -/
theorem Logic.run_seen (op : Logic) (args : List Value) : op.run (args.map (Value.seen w)) = op.run args := by
  cases op with
  | equal =>
    rcases args with _ | ⟨a, _ | ⟨b, _ | ⟨c, rest⟩⟩⟩ <;>
      simp [Logic.run, Builtin.wrongCount, Value.equal_seen]
  | negation =>
    rcases args with _ | ⟨a, _ | ⟨b, rest⟩⟩ <;> simp [Logic.run, Builtin.wrongCount]
  | conjunction => simp only [Logic.run, mapM_seen Value.asBoolean_seen]
  | disjunction => simp only [Logic.run, mapM_seen Value.asBoolean_seen]
  | _ => exact Logic.compare_seen _ args

theorem Logic.unladen_compare (test : Float → Float → Bool) (args : List Value) :
    Unladen Value.Simple (Logic.compare test args) := by
  unfold Logic.compare
  split
  · exact .bind (Value.unladen_asNumber _) fun _ _ => .bind (Value.unladen_asNumber _) fun _ _ => .ok fun _ => rfl
  · exact .error rfl

/-- What a comparison or a connective gives is a truth value. -/
theorem Logic.unladen_run (op : Logic) (args : List Value) : Unladen Value.Simple (op.run args) := by
  cases op with
  | equal =>
    rcases args with _ | ⟨a, _ | ⟨b, _ | ⟨_, _⟩⟩⟩
    · exact .error rfl
    · exact .error rfl
    · exact .ok fun _ => rfl
    · exact .error rfl
  | negation =>
    rcases args with _ | ⟨a, _ | ⟨_, _⟩⟩
    · exact .error rfl
    · exact .bind (Value.unladen_asBoolean a) fun _ _ => .ok fun _ => rfl
    · exact .error rfl
  | conjunction | disjunction => exact .bind (.mapM Value.unladen_asBoolean args) fun _ _ => .ok fun _ => rfl
  | _ => exact unladen_compare _ args

/-- Questions about an argument are answered by its kind and its size. -/
theorem Inspection.run_seen (op : Inspection) (args : List Value) :
    op.run (args.map (Value.seen w)) = op.run args := by
  cases op <;> rcases args with _ | ⟨a, _ | ⟨b, rest⟩⟩ <;> simp [Inspection.run, Builtin.wrongCount]

/-- To change every element and to join lists can be done in either order. -/
theorem Sequence.joined_map (f : α → β) (ls : List (List α)) :
    Sequence.joined (ls.map (List.map f)) = (Sequence.joined ls).map f := by
  rw [Sequence.joined_eq_flatten, Sequence.joined_eq_flatten, List.map_flatten]

/-- What is taken out of a list, or put together from lists, is seen as its elements are. -/
theorem Sequence.run_seen (op : Sequence) (args : List Value) :
    op.run (args.map (Value.seen w)) = seenResult w (Value.seen w) (op.run args) := by
  cases op with
  | list => simp [Sequence.run]
  | concatenate => simp [Sequence.run]
  | append =>
    simp only [Sequence.run, mapM_asList_seen]
    exact bind_seenResult fun lists => by simp [Sequence.joined_map, pure, Except.pure]
  | cons =>
    rcases args with _ | ⟨v, _ | ⟨vs, _ | ⟨_, _⟩⟩⟩
    · rfl
    · rfl
    · simp only [Sequence.run, List.map_cons, List.map_nil, Value.asList_seen]
      exact bind_seenResult fun items => by simp [pure, Except.pure]
    · simp [Sequence.run, Builtin.wrongCount]
  | characters =>
    rcases args with _ | ⟨v, _ | ⟨_, _⟩⟩
    · rfl
    · simp only [Sequence.run, List.map_cons, List.map_nil, Value.asString_seen]
      cases v <;> simp [Value.asString, pure, Except.pure, bind, Except.bind]
    · simp [Sequence.run, Builtin.wrongCount]
  | _ =>
    rcases args with _ | ⟨v, _ | ⟨_, _⟩⟩
    · rfl
    · simp only [Sequence.run, List.map_cons, List.map_nil, Value.asList_seen]
      refine bind_seenResult fun items => ?_
      cases items <;> simp [pure, Except.pure, Fault.seen]
    · simp [Sequence.run, Builtin.wrongCount]

theorem ErrorCode.ofArgument_seen (v : Value) : ErrorCode.ofArgument (v.seen w) = ErrorCode.ofArgument v := by
  simp [ErrorCode.ofArgument]

/-- What an argument is refused with carries no value and stands nowhere, and is seen as it is. -/
theorem ErrorCode.seenResult_ofArgument (v : Value) :
    seenResult w id (ErrorCode.ofArgument v) = ErrorCode.ofArgument v := by
  cases v with
  | number origin x =>
    simp only [ofArgument, Value.asNumber, bind, Except.bind]
    cases (Number.toInt? x).bind fun n => ofNumber? n.toNat <;> rfl
  | _ => rfl

/-- An error value that is made carries its payload as this is seen. -/
theorem ErrorHandling.create_seen (stamp : Stamp) (code description : Value) (payload : Option Value) :
    ErrorHandling.create stamp (code.seen w) (description.seen w) (payload.map (Value.seen w)) =
      seenResult w (Value.seen w) (ErrorHandling.create stamp code description payload) := by
  rw [ErrorHandling.create, ErrorHandling.create, ErrorCode.ofArgument_seen, Value.asString_seen]
  nth_rewrite 1 [← ErrorCode.seenResult_ofArgument (w := w) code, ← Value.seenResult_asString (w := w) description]
  exact bind_seenResult fun c => bind_seenResult fun d => by simp [pure, Except.pure]

/-- Error values are taken apart into what they carry, as this is seen. -/
theorem ErrorHandling.run_seen (op : ErrorHandling) (stamp : Stamp) (args : List Value) :
    op.run stamp (args.map (Value.seen w)) = seenResult w (Value.seen w) (op.run stamp args) := by
  rcases args with _ | ⟨v, _ | ⟨u, _ | ⟨t, _ | ⟨_, _⟩⟩⟩⟩
  · cases op <;> rfl
  · cases op with
    | catalogue =>
      simp only [List.map_cons, List.map_nil, ErrorHandling.run, ErrorCode.ofArgument_seen]
      nth_rewrite 1 [← ErrorCode.seenResult_ofArgument (w := w) v]
      exact bind_seenResult fun code => rfl
    | raise =>
      cases v with
      | error stamp code description payload =>
        cases payload <;> simp [ErrorHandling.run, Fault.ofError, Fault.seen]
      | _ => rfl
    | payload =>
      cases v with
      | error stamp code description payload =>
        cases payload with
        | none => rfl
        | some v => rfl
      | _ => rfl
    | _ => cases v <;> rfl
  · cases op with
    | make => exact ErrorHandling.create_seen stamp v u none
    | _ => simp [ErrorHandling.run, Builtin.wrongCount]
  · cases op with
    | make => exact ErrorHandling.create_seen stamp v u (some t)
    | _ => simp [ErrorHandling.run, Builtin.wrongCount]
  · cases op <;> simp [ErrorHandling.run, Builtin.wrongCount]

/-- A field is found by its name, which is the same in every view. -/
theorem StructOperation.field_seen (type : StructType) (values : List Value) (name : String) :
    StructOperation.field type (values.map (Value.seen w)) name =
      seenResult w (Value.seen w) (StructOperation.field type values name) := by
  rw [StructOperation.field, StructOperation.field, List.getElem?_map]
  cases values[type.fields.idxOf name]? with
  | none => rfl
  | some v => rfl

/-- Struct values are made and read field by field, and told apart by the number of their type. -/
theorem StructOperation.run_seen (op : StructOperation) (stamp : Stamp) (args : List Value) :
    op.run stamp (args.map (Value.seen w)) = seenResult w (Value.seen w) (op.run stamp args) := by
  cases op with
  | construct type => simp [StructOperation.run]
  | get =>
    rcases args with _ | ⟨v, _ | ⟨u, _ | ⟨_, _⟩⟩⟩
    · rfl
    · simp [StructOperation.run, Builtin.wrongCount]
    · cases v with
      | struct stamp type values =>
        simp only [List.map_cons, List.map_nil, Value.seen, StructOperation.run, Value.asSymbol_seen,
          Value.seenAll_eq_map]
        nth_rewrite 1 [← Value.seenResult_asSymbol (w := w) u]
        exact bind_seenResult fun name => StructOperation.field_seen type values name
      | _ => rfl
    · simp [StructOperation.run, Builtin.wrongCount]
  | access type index name =>
    rcases args with _ | ⟨v, _ | ⟨_, _⟩⟩
    · rfl
    · cases v with
      | struct stamp type' values =>
        simp only [List.map_cons, List.map_nil, Value.seen, StructOperation.run, Value.seenAll_eq_map,
          List.getElem?_map]
        split
        · cases values[index]? with
          | none => rfl
          | some v => rfl
        · rfl
      | _ => rfl
    · simp [StructOperation.run, Builtin.wrongCount]
  | _ =>
    rcases args with _ | ⟨v, _ | ⟨_, _⟩⟩
    · rfl
    · cases v <;> first
        | rfl
        | simp [StructOperation.run]
    · simp [StructOperation.run, Builtin.wrongCount]

end Lisplet
