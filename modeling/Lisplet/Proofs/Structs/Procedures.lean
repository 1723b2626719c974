import Mathlib.Data.List.Nodup
import Lisplet.Proofs.Evaluation.Direct
import Lisplet.Proofs.Structs.Definitions
/-!
# The procedures of a struct type

A definition binds a constructor, a test and an accessor for each field. A call of a built-in procedure on values goes
straight to its operation (`evaluate_calling`), so what the calls on a struct give is read off the operations: the test
holds, and an accessor and `struct-get` both give the value at the place of the field.

Main statement: right after the definition the procedures agree in this way for all values exactly if their names are
pairwise different (`proceduresAgree_iff`). Where names coincide, the procedure that is bound last has the name.
-/
namespace Lisplet

/-! ## Calls of built-in procedures -/

/-- A term that stands for a value: a name bound to it that heads no special form, or the value itself. -/
inductive Denotes (f : Frames Value) (scope : Scope) : Code → Value → Prop
  | name {pos : Position} {name : String} {v : Value} : Keyword.ofName? name = none → f.lookup? scope name = some v →
      Denotes f scope (.symbol pos name) v
  | value {pos : Position} {v : Value} : Denotes f scope (.embedded pos v) v

/-- The call of a procedure on values. -/
def calling (head : Code) (args : List Value) : Code :=
  .list .nowhere (head :: args.map (.embedded .nowhere))

section Calls

variable {scope : Scope} {s : Store} {head : Code} {b : Builtin} {args : List Value}

theorem Denotes.evaluate {v : Value} (h : Denotes s.frames scope head v) (n : Nat) :
    evaluate (n + 1) head scope s = .ok v s := by
  cases h with
  | name _ hbound => exact evaluate_symbol hbound _
  | value => rw [evaluate_embedded]; rfl

/-- A call of a built-in procedure on values goes straight to the procedure. -/
theorem evaluate_calling (h : Denotes s.frames scope head (.builtin b)) (n : Nat) :
    evaluate (n + 2) (calling head args) scope s = b.call ⟨evaluate (n + 1), apply (n + 1)⟩ args scope s := by
  have hkeyword : head.symbol?.bind Keyword.ofName? = none := by
    cases h with
    | name hname _ => exact hname
    | value => rfl
  have hplain : Recursion.expander? scope head s = .ok none s := by
    cases h with
    | name _ hbound => exact expander?_builtin hbound _
    | value => rfl
  rw [evaluate_succ, calling, Direct.evaluateTerm, hkeyword]
  refine (EStateM.bind_of_ok hplain _).trans ((EStateM.bind_of_ok (h.evaluate n) _).trans ?_)
  rw [evaluateAll_embedded, pure_bind]
  rfl

/-- What an operation makes of a fresh stamp and its arguments, a call of it gives, and it leaves all but a stamp as it was. -/
theorem call_stamped {r : Recursion} {run : Stamp → Except Fault Value}
    (hrun : b.operation.run r args = Eval.freshStamp >>= fun stamp => Eval.ofExcept (run stamp))
    (haccept : b.arity.accepts args.length) : b.call r args scope s =
      match run s.nextStamp with
      | .ok v => .ok v { s with nextStamp := s.nextStamp + 1 }
      | .error f => .error (.fault f) { s with nextStamp := s.nextStamp + 1 } := by
  rw [Builtin.call, if_pos haccept, hrun]
  have hstamp : Eval.freshStamp { s with caller := scope } =
      .ok s.nextStamp { s with caller := scope, nextStamp := s.nextStamp + 1 } := rfl
  simp only [Eval.withCaller, EStateM.bind_of_ok hstamp]
  cases run s.nextStamp with
  | ok v => rfl
  | error f => rfl

theorem call_structs {op : StructOperation} (hop : b.operation = .structs op) (haccept : b.arity.accepts args.length)
    (r : Recursion) : b.call r args scope s =
      match op.run s.nextStamp args with
      | .ok v => .ok v { s with nextStamp := s.nextStamp + 1 }
      | .error f => .error (.fault f) { s with nextStamp := s.nextStamp + 1 } :=
  call_stamped (by rw [hop]; rfl) haccept

end Calls

/-- An action that has a result and leaves all bindings as they were. -/
def Eval.Returns (act : Eval Value) (s : Store) (v : Value) : Prop :=
  ∃ s', act s = .ok v s' ∧ s'.frames = s.frames

theorem Eval.Returns.unique {act : Eval Value} {s : Store} {v w : Value} (hv : act.Returns s v) (hw : act.Returns s w) :
    v = w := by
  obtain ⟨_, hv, -⟩ := hv
  obtain ⟨_, hw, -⟩ := hw
  exact (EStateM.Result.ok.inj (hv.symm.trans hw)).1

theorem returns_stamped {b : Builtin} (run : Stamp → Except Fault Value) {args : List Value} {scope : Scope} {s : Store}
    {head : Code} {v : Value} (hhead : Denotes s.frames scope head (.builtin b))
    (hrun : ∀ r, b.operation.run r args = Eval.freshStamp >>= fun stamp => Eval.ofExcept (run stamp))
    (haccept : b.arity.accepts args.length) (hv : run s.nextStamp = .ok v) (n : Nat) :
    (evaluate (n + 2) (calling head args) scope).Returns s v := by
  refine ⟨{ s with nextStamp := s.nextStamp + 1 }, ?_, rfl⟩
  rw [evaluate_calling hhead, call_stamped (hrun _) haccept, hv]

theorem returns_calling {b : Builtin} {op : StructOperation} {args : List Value} {scope : Scope} {s : Store} {head : Code}
    {v : Value} (hhead : Denotes s.frames scope head (.builtin b)) (hop : b.operation = .structs op)
    (haccept : b.arity.accepts args.length) (hrun : op.run s.nextStamp args = .ok v) (n : Nat) :
    (evaluate (n + 2) (calling head args) scope).Returns s v :=
  returns_stamped (op.run · args) hhead (fun r => by rw [hop]; rfl) haccept hrun n

/-! ## What the procedures say of a struct -/

/-- The procedure that takes a field of a struct by its name. -/
def Builtin.structGet : Builtin := ⟨"struct-get", .exactly 2, .structs .get⟩

/-- What is said of a value when it is asked about under the names that a definition has bound: it is of the type, and its
fields have certain values. -/
structure Observed (type : StructType) (frames : Frames Value) (scope : Scope) (p : Value) (vs : List Value) : Prop where
  test : ∀ n s, s.frames = frames →
    (evaluate (n + 2) (calling (.symbol .nowhere ("is-" ++ type.name ++ "?")) [p]) scope).Returns s (.boolean true)
  access : ∀ (i : Nat) (field : String) (v : Value), type.fields[i]? = some field → vs[i]? = some v →
    ∀ n s, s.frames = frames →
      (evaluate (n + 2) (calling (.symbol .nowhere (type.name ++ "-" ++ field)) [p]) scope).Returns s v
  get : ∀ (i : Nat) (field : String) (v : Value), type.fields[i]? = some field → vs[i]? = some v →
    ∀ head, Denotes frames scope head (.builtin .structGet) → ∀ n s, s.frames = frames →
      (evaluate (n + 2) (calling head [p, .symbol field]) scope).Returns s v

/-- Calling the constructor by its name makes a struct of the type of which all procedures say what it was made of. -/
def ProceduresAgree (type : StructType) (frames : Frames Value) (scope : Scope) (vs : List Value) : Prop :=
  ∀ n s, s.frames = frames → ∃ stamp,
    (evaluate (n + 2) (calling (.symbol .nowhere ("make-" ++ type.name)) vs) scope).Returns s (.struct stamp type vs) ∧
      Observed type frames scope (.struct stamp type vs) vs

/-- The names of the procedures of a struct type are pairwise different. -/
def DistinctProcedures (name : String) (fields : List String) : Prop :=
  fields.Nodup ∧ ∀ field ∈ fields, name ++ "-" ++ field ≠ "make-" ++ name ∧ name ++ "-" ++ field ≠ "is-" ++ name ++ "?"

instance (name : String) (fields : List String) : Decidable (DistinctProcedures name fields) :=
  inferInstanceAs (Decidable (_ ∧ _))

/-! ## Names -/

theorem accessorName_injective (name : String) : Function.Injective fun field => name ++ "-" ++ field := by
  intro a b h
  have htext := congrArg String.toList h
  exact String.ext (by simpa using htext)

theorem nodup_structNames {name : String} {fields : List String} (h : DistinctProcedures name fields) :
    (structNames name fields).Nodup := by
  have hlonger {x : String} (hlength : name.length < x.length) : name ≠ x := fun he => by simp [← he] at hlength
  have hlengths : 0 < "make-".length ∧ 0 < "is-".length ∧ 0 < "-".length := by decide
  obtain ⟨hfields, hnames⟩ := h
  refine List.nodup_cons.2 ⟨?type, List.nodup_cons.2 ⟨?constructor, List.nodup_cons.2 ⟨?test, ?accessors⟩⟩⟩
  case type =>
    simp only [List.mem_cons, List.mem_map, not_or, not_exists, not_and]
    refine ⟨hlonger ?_, hlonger ?_, fun field _ he => hlonger ?_ he.symm⟩ <;> simp only [String.length_append] <;> omega
  case constructor =>
    simp only [List.mem_cons, List.mem_map, not_or, not_exists, not_and]
    refine ⟨fun he => ?_, fun field hfield => (hnames field hfield).1⟩
    simpa using congrArg (fun x => x.toList.head?) he
  case test =>
    simp only [List.mem_map, not_exists, not_and]
    exact fun field hfield => (hnames field hfield).2
  case accessors => exact hfields.map (accessorName_injective name)

theorem lookup_of_nodup {ν : Type} {pairs : List (String × ν)} (h : (pairs.map Prod.fst).Nodup) {name : String} {v : ν}
    (hmem : (name, v) ∈ pairs) : pairs.lookup name = some v := by
  obtain ⟨before, behind, rfl⟩ := List.append_of_mem hmem
  refine List.lookup_eq_some_iff.2 ⟨before, behind, rfl, fun p hp => ?_⟩
  rw [List.map_append, List.map_cons] at h
  have hbefore : name ∉ before.map Prod.fst := fun hname => List.disjoint_of_nodup_append h hname List.mem_cons_self
  have hne : name ≠ p.1 := fun he => hbefore (he ▸ List.mem_map_of_mem hp)
  simpa using hne

/-- A name that can be bound heads no special form. -/
theorem keyword_of_free {name : String} (h : isReserved name = false) : Keyword.ofName? name = none := by
  unfold Keyword.ofName?
  split
  case h_17 => rfl
  all_goals exact absurd h (by decide)

theorem Frames.lookup?_of_own {ν : Type} {f : Frames ν} {scope : Scope} {name : String} {v : ν}
    (h : f.value? scope.own name = some v) : f.lookup? scope name = some v := by
  rw [Frames.lookup?, Scope.chain, List.findSome?_cons, h]

/-! ## Agreement -/

section Agreement

variable {type : StructType} {frames : Frames Value} {scope : Scope}

theorem accessor_mem_ofStructType {i : Nat} {field : String} (h : type.fields[i]? = some field) :
    Builtin.accessor type i field ∈ Builtin.ofStructType type :=
  List.mem_cons_of_mem _ (List.mem_cons_of_mem _ (List.mem_map.2 ⟨(field, i), List.mem_zipIdx_iff_getElem?.2 h, rfl⟩))

theorem observed_struct (hnodup : type.fields.Nodup)
    (hbound : ∀ b ∈ Builtin.ofStructType type, ∀ pos, Denotes frames scope (.symbol pos b.name) (.builtin b))
    (stamp : Stamp) (vs : List Value) : Observed type frames scope (.struct stamp type vs) vs := by
  constructor
  case test =>
    rintro n s rfl
    have htest : (⟨"is-" ++ type.name ++ "?", .exactly 1, .structs (.test type)⟩ : Builtin) ∈ Builtin.ofStructType type :=
      List.mem_cons_of_mem _ List.mem_cons_self
    refine returns_calling (hbound _ htest _) rfl rfl ?_ n
    simp [StructOperation.run]
  case access =>
    rintro i field v hfield hv n s rfl
    refine returns_calling (hbound _ (accessor_mem_ofStructType hfield) _) rfl rfl ?_ n
    simp [StructOperation.run, hv]
  case get =>
    rintro i field v hfield hv head hhead n s rfl
    refine returns_calling hhead rfl rfl ?_ n
    obtain ⟨hi, rfl⟩ := List.getElem?_eq_some_iff.1 hfield
    have hplace : type.fields.idxOf type.fields[i] = i := hnodup.idxOf_getElem i hi
    show StructOperation.field type vs type.fields[i] = .ok v
    rw [StructOperation.field, hplace, hv]

theorem proceduresAgree_of_bound (hnodup : type.fields.Nodup)
    (hbound : ∀ b ∈ Builtin.ofStructType type, ∀ pos, Denotes frames scope (.symbol pos b.name) (.builtin b))
    {vs : List Value} (hlength : vs.length = type.fields.length) : ProceduresAgree type frames scope vs := by
  rintro n s rfl
  refine ⟨s.nextStamp, ?_, observed_struct hnodup hbound s.nextStamp vs⟩
  refine returns_calling (hbound _ List.mem_cons_self _) rfl ?_ rfl n
  simp [Arity.accepts, Arity.exactly, hlength]

/-! ## Names that coincide -/

/-- What the definition of a struct type binds for its fields. -/
def StructType.accessors (type : StructType) : List (String × Value) :=
  type.fields.zipIdx.map fun p => ((Builtin.accessor type p.2 p.1).name, .builtin (.accessor type p.2 p.1))

theorem StructType.definitions_eq (type : StructType) : type.definitions = type.definitions.take 3 ++ type.accessors := by
  simp [definitions, accessors, Builtin.ofStructType, Function.comp_def]

theorem StructType.mem_accessors {type : StructType} {p : String × Value} : p ∈ type.accessors ↔
    ∃ i field, type.fields[i]? = some field ∧ p = (type.name ++ "-" ++ field, .builtin (.accessor type i field)) := by
  simp only [accessors, List.mem_map, Prod.exists, List.mem_zipIdx_iff_getElem?]
  constructor
  · rintro ⟨field, i, hfield, rfl⟩
    exact ⟨i, field, hfield, rfl⟩
  · rintro ⟨i, field, hfield, rfl⟩
    exact ⟨field, i, hfield, rfl⟩

/-- What a definition has bound under the name of an accessor is an accessor of a field of that name. -/
theorem lookup_accessor (type : StructType) {field : String} (h : field ∈ type.fields) :
    ∃ i, type.fields[i]? = some field ∧
      type.definitions.reverse.lookup (type.name ++ "-" ++ field) = some (.builtin (.accessor type i field)) := by
  obtain ⟨i, hi⟩ := List.mem_iff_getElem?.1 h
  have hname : type.name ++ "-" ++ field ∈ type.accessors.reverse.map Prod.fst :=
    List.mem_map_of_mem (List.mem_reverse.2 (StructType.mem_accessors.2 ⟨i, field, hi, rfl⟩))
  obtain ⟨v, hmem, hv⟩ := exists_lookup_of_mem hname
  obtain ⟨j, field', hj, heq⟩ := StructType.mem_accessors.1 (List.mem_reverse.1 hmem)
  obtain ⟨hsame, rfl⟩ := Prod.mk.inj heq
  obtain rfl := accessorName_injective type.name hsame
  refine ⟨j, hj, ?_⟩
  -- The accessors are bound behind everything else, so the last binding of the name is one of theirs.
  rw [type.definitions_eq, List.reverse_append, List.lookup_append, hv, Option.some_or]

/-- An accessor refuses a row of truth values, whatever their number. -/
theorem not_returns_accessor {i : Nat} {field : String} {s : Store} {head : Code} {vs : List Value} {p : Value}
    (hhead : Denotes s.frames scope head (.builtin (.accessor type i field))) (hvs : ∀ v ∈ vs, v = .boolean false)
    (n : Nat) : ¬ (evaluate (n + 2) (calling head vs) scope).Returns s p := by
  rintro ⟨s', hcall, -⟩
  rw [evaluate_calling hhead] at hcall
  obtain _ | ⟨v, _ | ⟨w, vs⟩⟩ := vs
  · cases hcall
  · obtain rfl := hvs v List.mem_cons_self
    rw [call_structs rfl rfl] at hcall
    cases hcall
  · have hrefuse : (Builtin.accessor type i field).arity.accepts (v :: w :: vs).length = false := by
      simp [Builtin.accessor, Arity.accepts, Arity.exactly]
    rw [Builtin.call, hrefuse] at hcall
    cases hcall

/-- Procedures that agree on rows of truth values have different names. -/
theorem distinct_of_agree {name : String} {fields : List String} {id : Nat} {s : Store}
    (hbound : ∀ field ∈ fields, ∃ i, fields[i]? = some field ∧ ∀ pos, Denotes s.frames scope
      (.symbol pos (name ++ "-" ++ field)) (.builtin (.accessor ⟨id, name, fields⟩ i field)))
    (hagree : ∀ vs, vs.length = fields.length → ProceduresAgree ⟨id, name, fields⟩ s.frames scope vs) :
    DistinctProcedures name fields := by
  let falses : List Value := List.replicate fields.length (.boolean false)
  obtain ⟨stamp, hmade, hobserved⟩ := hagree falses List.length_replicate 0 s rfl
  refine ⟨?_, fun field hfield => ?_⟩
  · refine List.nodup_iff_getElem?_ne_getElem?.2 fun i j hij hj heq => ?_
    -- Of the fields of one name the first is true and the second is not.
    let marks : List Value := (List.range fields.length).map fun k => .boolean (k == i)
    obtain ⟨stamp, -, hobserved⟩ := hagree marks (by simp [marks]) 0 s rfl
    have hfield := List.getElem?_eq_getElem hj
    have hfirst := hobserved.access i fields[j] (.boolean true) (heq.trans hfield) (by simp [marks, Nat.lt_trans hij hj]) 0 s rfl
    have hsecond := hobserved.access j fields[j] (.boolean false) hfield (by simp [marks, hj, Nat.ne_of_gt hij]) 0 s rfl
    cases hfirst.unique hsecond
  · obtain ⟨i, hi, haccessor⟩ := hbound field hfield
    have hvalue : falses[i]? = some (.boolean false) :=
      List.getElem?_replicate_of_lt (List.getElem?_eq_some_iff.1 hi).1
    refine ⟨fun he => ?_, fun he => ?_⟩
    · exact not_returns_accessor (haccessor _) (fun v hv => List.eq_of_mem_replicate hv) 0 (he ▸ hmade)
    · have htest := hobserved.test 0 s rfl
      rw [← he] at htest
      cases htest.unique (hobserved.access i field _ hi hvalue 0 s rfl)

end Agreement

/-! ## After a definition -/

section AfterDefinition

variable {n : Nat} {pos pos' : Position} {operands : List Code} {scope : Scope} {s s' : Store} {v : Value} {name : String}
  {fields : List String}

/-- After a definition its names stand for what the definition binds last under them. -/
theorem denotes_of_defined (hadded : StructAdded scope name fields s s') (hown : scope.own < s.frames.size)
    (hfree : isReserved name = false) {x : String} (hx : x ∈ structNames name fields) {w : Value}
    (hw : (StructType.definitions ⟨s.registry.size, name, fields⟩).reverse.lookup x = some w) (pos : Position) :
    Denotes s'.frames scope (.symbol pos x) w :=
  .name (keyword_of_free (free_of_mem_structNames hfree x hx)) (Frames.lookup?_of_own ((hadded.bound hown x hx).trans hw))

/-- Right after a struct type was defined, in the same scope, its procedures and `struct-get` agree for all values exactly
if the names of the procedures are pairwise different. -/
theorem proceduresAgree_iff (hshape : structShape? operands = some (name, fields)) (hown : scope.own < s.frames.size)
    (hdefined : evaluate n (definingStruct pos pos' operands) scope s = .ok v s') :
    (∀ vs, vs.length = fields.length → ProceduresAgree ⟨s.registry.size, name, fields⟩ s'.frames scope vs) ↔
      DistinctProcedures name fields := by
  obtain ⟨name', fields', hshape', hfree, hadded⟩ := added_of_defined hdefined
  obtain ⟨rfl, rfl⟩ := Prod.mk.inj (Option.some.inj (hshape.symm.trans hshape'))
  constructor
  · refine distinct_of_agree fun field hfield => ?_
    obtain ⟨i, hi, hlast⟩ := lookup_accessor ⟨s.registry.size, name, fields⟩ hfield
    have hmem : name ++ "-" ++ field ∈ structNames name fields :=
      List.mem_cons_of_mem _ (List.mem_cons_of_mem _ (List.mem_cons_of_mem _ (List.mem_map_of_mem hfield)))
    exact ⟨i, hi, denotes_of_defined hadded hown hfree hmem hlast⟩
  · intro hdistinct vs hlength
    refine proceduresAgree_of_bound hdistinct.1 (fun b hb pos => ?_) hlength
    have hnames := StructType.names_definitions ⟨s.registry.size, name, fields⟩
    have hmem : (b.name, Value.builtin b) ∈ StructType.definitions ⟨s.registry.size, name, fields⟩ :=
      List.mem_cons_of_mem _ (List.mem_map_of_mem hb)
    refine denotes_of_defined hadded hown hfree (hnames ▸ List.mem_map_of_mem hmem) ?_ pos
    refine lookup_of_nodup ?_ (List.mem_reverse.2 hmem)
    rw [List.map_reverse, hnames, List.nodup_reverse]
    exact nodup_structNames hdistinct

end AfterDefinition

/-- The procedures of points agree, and `struct-get` still has its name. -/
theorem proceduresAgree_iff_point : ∃ s', evaluate 1 (definingStruct .start .start pointOperands) .global Store.unused =
    .ok .nil s' ∧ Denotes s'.frames .global (.symbol .start "struct-get") (.builtin .structGet) ∧
      ∀ vs, vs.length = 2 → ProceduresAgree ⟨0, "point", ["x", "y"]⟩ s'.frames .global vs := by
  have hshape : structShape? pointOperands = some ("point", ["x", "y"]) := rfl
  obtain ⟨s', hs', hadded⟩ := defined_of_free (s := Store.unused) hshape rfl (by decide) 0 .start .start .global
  have hkept := hadded.names "struct-get" (by decide)
  exact ⟨s', hs', .name rfl (Frames.lookup?_of_own hkept), (proceduresAgree_iff hshape Nat.one_pos hs').2 (by decide)⟩

/-- The operands of `(define-struct make (make))`. -/
def makeOperands : List Code := [.symbol .start "make", .list .start [.symbol .start "make"]]

/-- The accessor of the field `make` of a struct type of that name takes the place of its constructor. -/
theorem not_proceduresAgree_make : ¬ ∀ v s',
    evaluate 1 (definingStruct .start .start makeOperands) .global Store.unused = .ok v s' →
      ∀ vs, vs.length = 1 → ProceduresAgree ⟨0, "make", ["make"]⟩ s'.frames .global vs := by
  intro h
  have hshape : structShape? makeOperands = some ("make", ["make"]) := rfl
  obtain ⟨s', hs', hadded⟩ := defined_of_free (s := Store.unused) hshape rfl (by decide) 0 .start .start .global
  have haccessor : Denotes s'.frames .global (.symbol .nowhere "make-make")
      (.builtin (.accessor ⟨0, "make", ["make"]⟩ 0 "make")) :=
    denotes_of_defined hadded Nat.one_pos (by decide) (by decide) rfl .nowhere
  obtain ⟨stamp, hmade, -⟩ := h .nil s' hs' [.boolean false] rfl 0 s' rfl
  exact not_returns_accessor haccessor (by simp) 0 hmade

end Lisplet
