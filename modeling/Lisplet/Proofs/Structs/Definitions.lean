import Lisplet.Proofs.Evaluation.Direct
import Lisplet.Proofs.Evaluation.Frames
/-!
# Defining a struct type

A definition of a struct type registers the type and then binds its name and its procedures one after another in the own
frame of the scope (`Direct.structForm_apply`). Whatever is refused is refused before anything is bound: a derived name is
never reserved unless the type's name is (`free_of_mem_structNames`).

Main statement: a definition that fails leaves everything as it was, except that a reserved name is refused only after the
type was registered; one that succeeds adds one type and changes the derived names in one frame (`definingStruct_cases`).
-/
namespace Lisplet

/-! ## Binding a row of names -/

namespace Frames

variable {ν : Type}

/-- Binds names one after another in a scope's own frame. -/
def bindAll (f : Frames ν) (s : Scope) (pairs : List (String × ν)) : Frames ν :=
  pairs.foldl (fun f p => f.bind s p.1 p.2) f

variable (f : Frames ν) (s : Scope) (pairs : List (String × ν))

theorem size_bindAll : (f.bindAll s pairs).size = f.size := by
  induction pairs generalizing f with
  | nil => rfl
  | cons p pairs ih => exact (ih (f.bind s p.1 p.2)).trans (size_put ..)

/-- Only the scope's own frame changes. -/
theorem bindings_bindAll_of_ne {k : Nat} (hk : k ≠ s.own) : (f.bindAll s pairs).bindings k = f.bindings k := by
  induction pairs generalizing f with
  | nil => rfl
  | cons p pairs ih => exact (ih (f.bind s p.1 p.2)).trans (bindings_put_of_ne f hk p.1 p.2)

/-- Only the names of the row change. -/
theorem value?_bindAll_of_not_mem {name : String} (hname : name ∉ pairs.map Prod.fst) (k : Nat) :
    (f.bindAll s pairs).value? k name = f.value? k name := by
  induction pairs generalizing f with
  | nil => rfl
  | cons p pairs ih =>
    obtain ⟨hfirst, hrest⟩ : name ≠ p.1 ∧ name ∉ pairs.map Prod.fst := by simpa using hname
    refine (ih (f.bind s p.1 p.2) hrest).trans ?_
    simp [bind, value?_put, hfirst]

/-- Of several values for one name the last one stays. -/
theorem value?_bindAll_own (hs : s.own < f.size) (name : String) :
    (f.bindAll s pairs).value? s.own name = (pairs.reverse.lookup name).or (f.value? s.own name) := by
  induction pairs generalizing f with
  | nil => rfl
  | cons p pairs ih =>
    have hsize : s.own < (f.bind s p.1 p.2).size := (size_put f s.own p.1 p.2).symm ▸ hs
    have hfirst : (f.bind s p.1 p.2).value? s.own name = if name = p.1 then some p.2 else f.value? s.own name := by
      simp [bind, value?_put, hs]
    refine (ih (f.bind s p.1 p.2) hsize).trans ?_
    have hlast : [p].lookup name = if name = p.1 then some p.2 else none := Bindings.value?_cons p.1 p.2 [] name
    rw [hfirst, List.reverse_cons, List.lookup_append, Option.or_assoc, hlast]
    split
    · rfl
    · rfl

end Frames

/-- A name that stands in a row of pairs is found there. -/
theorem exists_lookup_of_mem {ν : Type} {pairs : List (String × ν)} {name : String} (h : name ∈ pairs.map Prod.fst) :
    ∃ v, (name, v) ∈ pairs ∧ pairs.lookup name = some v := by
  obtain ⟨v, hv⟩ : ∃ v, pairs.lookup name = some v := by
    rw [← Option.ne_none_iff_exists', Ne, List.lookup_eq_none_iff]
    intro hnone
    obtain ⟨p, hp, rfl⟩ := List.mem_map.1 h
    simpa using hnone p hp
  obtain ⟨before, behind, hsplit, -⟩ := List.lookup_eq_some_iff.1 hv
  exact ⟨v, hsplit ▸ List.mem_append_right _ List.mem_cons_self, hv⟩

/-! ## Derived names -/

/-- The names that the definition of a struct type binds, in this order: the type, its constructor, its test and its
accessors. -/
def structNames (name : String) (fields : List String) : List String :=
  name :: ("make-" ++ name) :: ("is-" ++ name ++ "?") :: fields.map fun field => name ++ "-" ++ field

/-- What the definition of a struct type binds. -/
def StructType.definitions (type : StructType) : List (String × Value) :=
  (type.name, .structType type) :: (Builtin.ofStructType type).map fun b => (b.name, .builtin b)

theorem StructType.names_definitions (type : StructType) :
    type.definitions.map Prod.fst = structNames type.name type.fields := by
  have haccessors : (type.fields.zipIdx.map fun p => (Builtin.accessor type p.2 p.1).name) =
      type.fields.map fun field => type.name ++ "-" ++ field := by
    conv => rhs; rw [← List.zipIdx_map_fst 0 type.fields, List.map_map]
    rfl
  simpa [definitions, structNames, Builtin.ofStructType, Function.comp_def] using haccessors

/-- What stands in front of a dash in a reserved name is reserved itself. -/
theorem isReserved_take_of_dash : ∀ w ∈ reservedNames, ∀ k < w.toList.length, w.toList[k]? = some '-' →
    isReserved (String.ofList (w.toList.take k)) = true := by
  decide

theorem isReserved_front {name field : String} (h : isReserved (name ++ "-" ++ field) = true) : isReserved name = true := by
  have hmem : name ++ "-" ++ field ∈ reservedNames := by simpa [isReserved] using h
  have htext : (name ++ "-" ++ field).toList = name.toList ++ '-' :: field.toList := by simp
  have hfront := isReserved_take_of_dash _ hmem name.toList.length (by simp) (by simp)
  simpa [htext] using hfront

/-- No reserved name is that of a constructor or a test. -/
theorem not_isReserved_make_is : ∀ w ∈ reservedNames, w.toList.take 5 ≠ "make-".toList ∧ w.toList.take 3 ≠ "is-".toList := by
  decide

/-- A definition whose name is not reserved derives no reserved name. -/
theorem free_of_mem_structNames {name : String} {fields : List String} (hfree : isReserved name = false) :
    ∀ x ∈ structNames name fields, isReserved x = false := by
  refine fun x hx => Bool.eq_false_iff.2 fun hreserved => ?_
  have hmem : x ∈ reservedNames := by simpa [isReserved] using hreserved
  obtain ⟨hmake, his⟩ := not_isReserved_make_is x hmem
  simp only [structNames, List.mem_cons, List.mem_map] at hx
  obtain rfl | rfl | rfl | ⟨field, -, rfl⟩ := hx
  · exact Bool.eq_false_iff.1 hfree hreserved
  · exact hmake (by simp)
  · exact his (by simp)
  · exact Bool.eq_false_iff.1 hfree (isReserved_front hreserved)

/-! ## The form -/

/-- The name and the fields that the operands of a definition give, if they have the right shape. -/
def structShape? : List Code → Option (String × List String)
  | [.symbol _ name, .list _ elements] => (elements.mapM Term.symbol?).map (name, ·)
  | _ => none

/-- A registry with one more type at its end. -/
def Registry.extended (r : Registry) (name : String) (fields : List String) : Registry :=
  { r with types := r.types ++ [⟨r.size, name, fields⟩] }

/-- A store in which a struct type is registered and its names are bound. -/
def Store.structDefined (s : Store) (scope : Scope) (name : String) (fields : List String) : Store :=
  { s with
    registry := s.registry.extended name fields
    frames := s.frames.bindAll scope (StructType.definitions ⟨s.registry.size, name, fields⟩) }

theorem Eval.define_of_free (scope : Scope) {name : String} (hfree : isReserved name = false) (v : Value) (s : Store) :
    Eval.define scope name v s = .ok () { s with frames := s.frames.bind scope name v } := by
  simp only [Eval.define, hfree]
  rfl

/-- Tracing changes the log at most. -/
theorem Eval.trace_eq_ok (message : Unit → String) (s : Store) :
    ∃ log, Eval.trace message s = .ok () { s with log := log } := by
  rw [Eval.trace_apply]
  split
  · exact ⟨_, rfl⟩
  · exact ⟨s.log, rfl⟩

theorem defineBuiltins_apply (scope : Scope) {bs : List Builtin} (hfree : ∀ b ∈ bs, isReserved b.name = false)
    (s : Store) : Recursion.defineBuiltins scope bs s =
      .ok () { s with frames := s.frames.bindAll scope (bs.map fun b => (b.name, .builtin b)) } := by
  induction bs generalizing s with
  | nil => rfl
  | cons b bs ih =>
    obtain ⟨hb, hbs⟩ := List.forall_mem_cons.1 hfree
    rw [Recursion.defineBuiltins, EStateM.bind_of_ok (Eval.define_of_free scope hb _ s), ih hbs]
    rfl

theorem registerStruct_of_full {s : Store} (hfull : s.registry.isFull = true) (name : String) (fields : List String) :
    Recursion.registerStruct name fields s = .error (.fault (.tooManyStructs s.registry.capacity)) s := by
  simp only [Recursion.registerStruct, Registry.register, hfull]
  rfl

theorem registerStruct_of_room {s : Store} (hroom : s.registry.isFull = false) (name : String) (fields : List String) :
    Recursion.registerStruct name fields s = .ok ⟨s.registry.size, name, fields⟩
      { s with registry := s.registry.extended name fields } := by
  simp only [Recursion.registerStruct, Registry.register, hroom]
  rfl

namespace Direct

variable (scope : Scope) {operands : List Code} {name : String} {fields : List String} {s : Store}

theorem structForm_of_shape (hshape : structShape? operands = some (name, fields)) :
    structForm scope operands = (do
      let type ← Recursion.registerStruct name fields
      Eval.define scope name (.structType type)
      Recursion.defineBuiltins scope (Builtin.ofStructType type)
      Eval.trace fun _ =>
        "Registered struct " ++ name ++ " [" ++ " ".intercalate fields ++ "] (#" ++ Nat.repr type.id ++ ")"
      return .nil) := by
  unfold structShape? at hshape
  split at hshape
  · obtain ⟨fields', hfields, heq⟩ := Option.map_eq_some_iff.1 hshape
    obtain ⟨rfl, rfl⟩ := Prod.mk.inj heq
    simp only [structForm, hfields]
  · cases hshape

theorem structForm_of_malformed (hshape : structShape? operands = none) :
    structForm scope operands s = .error (.fault (.shape .structSyntax none)) s := by
  unfold structForm
  split
  next pos name pos' elements =>
    have hfields : elements.mapM Term.symbol? = none := by simpa [structShape?] using hshape
    rw [hfields]
    rfl
  next => rfl

theorem structForm_of_full (hshape : structShape? operands = some (name, fields)) (hfull : s.registry.isFull = true) :
    structForm scope operands s = .error (.fault (.tooManyStructs s.registry.capacity)) s := by
  rw [structForm_of_shape scope hshape, EStateM.bind_of_error (registerStruct_of_full hfull name fields)]

/-- A reserved name is refused when the type has been registered already. -/
theorem structForm_of_reserved (hshape : structShape? operands = some (name, fields)) (hroom : s.registry.isFull = false)
    (hreserved : isReserved name = true) : structForm scope operands s =
      .error (.fault (.ofScope (.reserved name))) { s with registry := s.registry.extended name fields } := by
  rw [structForm_of_shape scope hshape, EStateM.bind_of_ok (registerStruct_of_room hroom name fields)]
  simp only [Eval.define, hreserved]
  rfl

/-- Apart from the definition only the trace can change. -/
theorem structForm_of_free (hshape : structShape? operands = some (name, fields)) (hroom : s.registry.isFull = false)
    (hfree : isReserved name = false) : ∃ log, structForm scope operands s =
      .ok .nil { s.structDefined scope name fields with log := log } := by
  have hbuiltins : ∀ b ∈ Builtin.ofStructType ⟨s.registry.size, name, fields⟩, isReserved b.name = false := by
    intro b hb
    have hnames : ∀ x ∈ structNames name fields, isReserved x = false := free_of_mem_structNames hfree
    refine hnames b.name ?_
    rw [← StructType.names_definitions ⟨s.registry.size, name, fields⟩]
    exact List.mem_map.2 ⟨(b.name, .builtin b), List.mem_cons_of_mem _ (List.mem_map_of_mem hb), rfl⟩
  obtain ⟨log, hlog⟩ := Eval.trace_eq_ok
    (fun _ => "Registered struct " ++ name ++ " [" ++ " ".intercalate fields ++ "] (#" ++ Nat.repr s.registry.size ++ ")")
    (s.structDefined scope name fields)
  refine ⟨log, ?_⟩
  rw [structForm_of_shape scope hshape, EStateM.bind_of_ok (registerStruct_of_room hroom name fields),
    EStateM.bind_of_ok (Eval.define_of_free scope hfree _ _), EStateM.bind_of_ok (defineBuiltins_apply scope hbuiltins _)]
  exact EStateM.bind_of_ok hlog _

/-- The ways a definition can end. -/
theorem structForm_cases (operands : List Code) (s : Store) :
    (∃ e, structForm scope operands s = .error e s) ∨
    (∃ name fields, structShape? operands = some (name, fields) ∧ s.registry.isFull = false ∧ isReserved name = true ∧
      structForm scope operands s =
        .error (.fault (.ofScope (.reserved name))) { s with registry := s.registry.extended name fields }) ∨
    ∃ name fields log, structShape? operands = some (name, fields) ∧ isReserved name = false ∧
      structForm scope operands s = .ok .nil { s.structDefined scope name fields with log := log } := by
  cases hshape : structShape? operands with
  | none => exact .inl ⟨_, structForm_of_malformed scope hshape⟩
  | some shape =>
    obtain ⟨name, fields⟩ := shape
    cases hroom : s.registry.isFull with
    | true => exact .inl ⟨_, structForm_of_full scope hshape hroom⟩
    | false =>
      cases hname : isReserved name with
      | true => exact .inr (.inl ⟨name, fields, rfl, rfl, hname, structForm_of_reserved scope hshape hroom hname⟩)
      | false =>
        obtain ⟨log, hlog⟩ := structForm_of_free scope hshape hroom hname
        exact .inr (.inr ⟨name, fields, log, rfl, hname, hlog⟩)

end Direct

/-! ## All or nothing -/

/-- The term that defines a struct type. -/
def definingStruct (pos pos' : Position) (operands : List Code) : Code :=
  .list pos (.symbol pos' "define-struct" :: operands)

theorem evaluate_definingStruct (n : Nat) (pos pos' : Position) (operands : List Code) (scope : Scope) :
    evaluate (n + 1) (definingStruct pos pos' operands) scope = Direct.structForm scope operands := by
  rw [evaluate_succ]
  rfl

/-- What a definition that goes through leaves: one more type at the end of the registry, and in one frame new values for
the derived names. -/
structure StructAdded (scope : Scope) (name : String) (fields : List String) (s s' : Store) : Prop where
  registry : s'.registry = s.registry.extended name fields
  size : s'.frames.size = s.frames.size
  frames : ∀ k, k ≠ scope.own → s'.frames.bindings k = s.frames.bindings k
  names : ∀ x, x ∉ structNames name fields → s'.frames.value? scope.own x = s.frames.value? scope.own x
  bound : scope.own < s.frames.size → ∀ x ∈ structNames name fields, s'.frames.value? scope.own x =
    (StructType.definitions ⟨s.registry.size, name, fields⟩).reverse.lookup x

theorem structAdded_structDefined (s : Store) (scope : Scope) (name : String) (fields : List String)
    (log : Array Emission) : StructAdded scope name fields s { s.structDefined scope name fields with log := log } := by
  have hnames := StructType.names_definitions ⟨s.registry.size, name, fields⟩
  refine ⟨rfl, Frames.size_bindAll .., fun k hk => Frames.bindings_bindAll_of_ne _ _ _ hk, fun x hx => ?_, ?_⟩
  · exact Frames.value?_bindAll_of_not_mem _ _ _ (hnames ▸ hx) _
  · intro hown x hx
    refine (Frames.value?_bindAll_own _ _ _ hown x).trans ?_
    have hbound : x ∈ (StructType.definitions ⟨s.registry.size, name, fields⟩).reverse.map Prod.fst := by
      rw [List.map_reverse, hnames]
      exact List.mem_reverse.2 hx
    obtain ⟨v, -, hv⟩ := exists_lookup_of_mem hbound
    rw [hv, Option.some_or]

/-- What is known after a definition that went through. -/
theorem added_of_defined {n : Nat} {pos pos' : Position} {operands : List Code} {scope : Scope} {s s' : Store} {v : Value}
    (h : evaluate n (definingStruct pos pos' operands) scope s = .ok v s') :
    ∃ name fields, structShape? operands = some (name, fields) ∧ isReserved name = false ∧
      StructAdded scope name fields s s' := by
  cases n with
  | zero => cases h
  | succ n =>
    rw [evaluate_definingStruct] at h
    obtain ⟨e, hkept⟩ | ⟨name, fields, -, -, -, hleft⟩ | ⟨name, fields, log, hshape, hfree, hadded⟩ :=
      Direct.structForm_cases scope operands s
    · cases hkept.symm.trans h
    · cases hleft.symm.trans h
    · obtain ⟨-, rfl⟩ := EStateM.Result.ok.inj (hadded.symm.trans h)
      exact ⟨name, fields, hshape, hfree, structAdded_structDefined s scope name fields log⟩

/-- A definition of the right shape goes through if there is room and the name is free. -/
theorem defined_of_free {operands : List Code} {s : Store} {name : String} {fields : List String}
    (hshape : structShape? operands = some (name, fields)) (hroom : s.registry.isFull = false)
    (hfree : isReserved name = false) (n : Nat) (pos pos' : Position) (scope : Scope) :
    ∃ s', evaluate (n + 1) (definingStruct pos pos' operands) scope s = .ok .nil s' ∧
      StructAdded scope name fields s s' := by
  obtain ⟨log, hlog⟩ := Direct.structForm_of_free scope hshape hroom hfree
  refine ⟨_, ?_, structAdded_structDefined s scope name fields log⟩
  rw [evaluate_definingStruct, hlog]

/-- A definition of the right shape with a reserved name is refused if there is room, and leaves its type at the end of the
registry. -/
theorem refused_of_reserved {operands : List Code} {s : Store} {name : String} {fields : List String}
    (hshape : structShape? operands = some (name, fields)) (hroom : s.registry.isFull = false)
    (hreserved : isReserved name = true) (n : Nat) (pos pos' : Position) (scope : Scope) :
    evaluate (n + 1) (definingStruct pos pos' operands) scope s =
      .error (.fault (.ofScope (.reserved name))) { s with registry := s.registry.extended name fields } := by
  rw [evaluate_definingStruct]
  exact Direct.structForm_of_reserved scope hshape hroom hreserved

/-- Evaluating a definition of a struct type, in every store. A failure leaves frames and registry as they were, unless the
shape is right, there is room and the name is reserved: then the definition is refused as one of a reserved identifier, after
the type was registered. A success adds one type and changes the derived names in the own frame of the scope. It succeeds if
the shape is right, there is room and the name is free. -/
theorem definingStruct_cases (n : Nat) (pos pos' : Position) (operands : List Code) (scope : Scope) (s : Store) :
    (∀ e s', evaluate n (definingStruct pos pos' operands) scope s = .error e s' → s'.frames = s.frames ∧
      (s'.registry = s.registry ∨ ∃ name fields, structShape? operands = some (name, fields) ∧
        s.registry.isFull = false ∧ isReserved name = true ∧ e = .fault (.ofScope (.reserved name)) ∧
        s'.registry = s.registry.extended name fields)) ∧
    (∀ v s', evaluate n (definingStruct pos pos' operands) scope s = .ok v s' →
      ∃ name fields, structShape? operands = some (name, fields) ∧ StructAdded scope name fields s s') ∧
    ∀ name fields, structShape? operands = some (name, fields) → s.registry.isFull = false →
      (isReserved name = true → evaluate (n + 1) (definingStruct pos pos' operands) scope s =
        .error (.fault (.ofScope (.reserved name))) { s with registry := s.registry.extended name fields }) ∧
      (isReserved name = false → ∃ s', evaluate (n + 1) (definingStruct pos pos' operands) scope s = .ok .nil s') := by
  refine ⟨fun e s' he => ?_, fun v s' hv => ?_, fun name fields hshape hroom => ⟨fun hreserved => ?_, fun hfree => ?_⟩⟩
  · cases n with
    | zero =>
      cases he
      exact ⟨rfl, .inl rfl⟩
    | succ n =>
      rw [evaluate_definingStruct] at he
      -- Nothing was done, or only the registration, or all of it.
      obtain ⟨e', hkept⟩ | ⟨name, fields, hshape, hroom, hreserved, hleft⟩ | ⟨name, fields, log, -, -, hadded⟩ :=
        Direct.structForm_cases scope operands s
      · obtain ⟨rfl, rfl⟩ := EStateM.Result.error.inj (hkept.symm.trans he)
        exact ⟨rfl, .inl rfl⟩
      · obtain ⟨rfl, rfl⟩ := EStateM.Result.error.inj (hleft.symm.trans he)
        exact ⟨rfl, .inr ⟨name, fields, hshape, hroom, hreserved, rfl, rfl⟩⟩
      · rw [hadded] at he
        cases he
  · obtain ⟨name, fields, hshape, -, hadded⟩ := added_of_defined hv
    exact ⟨name, fields, hshape, hadded⟩
  · exact refused_of_reserved hshape hroom hreserved n pos pos' scope
  · obtain ⟨s', hs', -⟩ := defined_of_free hshape hroom hfree n pos pos' scope
    exact ⟨s', hs'⟩

/-- A fresh store. -/
def Store.unused : Store := .initial (World.closed "/" [] []) {}

/-- The operands of `(define-struct point (x y))`. -/
def pointOperands : List Code :=
  [.symbol .start "point", .list .start [.symbol .start "x", .symbol .start "y"]]

/-- Defining points in a fresh store registers their type and binds an accessor for their second field. -/
theorem definingStruct_cases_point :
    ∃ s', evaluate 1 (definingStruct .start .start pointOperands) .global Store.unused = .ok .nil s' ∧
      s'.registry.types = [⟨0, "point", ["x", "y"]⟩] ∧
      s'.frames.value? 0 "point-y" = some (.builtin (.accessor ⟨0, "point", ["x", "y"]⟩ 1 "y")) ∧
      s'.frames.value? 0 "head" = Store.unused.frames.value? 0 "head" := by
  obtain ⟨-, hok, hsucceeds⟩ := definingStruct_cases 1 .start .start pointOperands .global Store.unused
  obtain ⟨s', hs'⟩ := ((definingStruct_cases 0 .start .start pointOperands .global Store.unused).2.2 "point" ["x", "y"]
    rfl rfl).2 (by decide)
  obtain ⟨name, fields, hshape, hadded⟩ := hok _ _ hs'
  obtain ⟨rfl, rfl⟩ := Prod.mk.inj (Option.some.inj hshape)
  refine ⟨s', hs', congrArg Registry.types hadded.registry, ?_, hadded.names "head" (by decide)⟩
  exact hadded.bound Nat.one_pos "point-y" (by decide)

/-- The operands of `(define-struct if (x))`. -/
def reservedOperands : List Code := [.symbol .start "if", .list .start [.symbol .start "x"]]

/-- The definition of a struct type called `if` fails and leaves the type in the registry. -/
theorem not_definingStruct_kept_reserved :
    ¬ ∀ e s', evaluate 1 (definingStruct .start .start reservedOperands) .global Store.unused = .error e s' →
      s'.registry = Store.unused.registry ∧ s'.frames = Store.unused.frames := by
  intro h
  have hrun : evaluate 1 (definingStruct .start .start reservedOperands) .global Store.unused =
      .error (.fault (.ofScope (.reserved "if")))
        { Store.unused with registry := Store.unused.registry.extended "if" ["x"] } := rfl
  have htypes := congrArg Registry.types (h _ _ hrun).1
  cases htypes

end Lisplet
