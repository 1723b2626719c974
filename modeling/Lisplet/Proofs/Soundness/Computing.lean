import Lisplet.Proofs.Reading.Forms
import Lisplet.Proofs.Soundness.Actions
/-!
# What is computed from sound values is sound

Built-in procedures that only compute give sound values for sound arguments, and a fault they raise carries a sound
payload (`gives_errors`, `gives_structs`; the other families make values that refer to nothing or hand on what they were
given). What they make under a stamp is sound as what the stamp marks. Matching the operands of a macro call and filling in
what was found keep code sound (`gives_expandRule`), and code that was read from a text holds no values at all
(`gives_readForms`).
-/
namespace Lisplet

variable {g : Ground} {α β : Type}

namespace Gives

variable {P : Ground → α → Prop} {Q : Ground → β → Prop}

theorem fault {f : Fault} (hf : f.payload = none) : Gives g P (.error f) := Fault.sound_of_none hf

/-- A computation in two parts gives what the second gives, or the sound fault of either. -/
theorem bind {x : Except Fault α} {f : α → Except Fault β} (hx : Gives g P x) (hf : ∀ a, P g a → Gives g Q (f a)) :
    Gives g Q (x >>= f) := by
  cases x with
  | ok a => exact hf a hx
  | error e => exact hx

theorem imp {P' : Ground → α → Prop} {x : Except Fault α} (hx : Gives g P x) (hP : ∀ {a}, P g a → P' g a) :
    Gives g P' x := by
  cases x with
  | ok a => exact hP hx
  | error e => exact hx

/-- Each element of a row gives something sound, or the first that fails has a sound fault. -/
theorem mapM {f : α → Except Fault β} {as : List α} (hf : ∀ a ∈ as, Gives g Q (f a)) :
    Gives g (fun g bs => ∀ b ∈ bs, Q g b) (as.mapM f) := by
  induction as with
  | nil => exact fun b hb => absurd hb List.not_mem_nil
  | cons a as ih =>
    obtain ⟨ha, has⟩ := List.forall_mem_cons.1 hf
    rw [List.mapM_cons]
    exact bind ha fun b hb => bind (ih has) fun bs hbs => List.forall_mem_cons.2 ⟨hb, hbs⟩

end Gives

/-! ## Arguments -/

/-- An argument of the wrong kind is reported by its type name, and no value goes into the fault. -/
theorem gives_asNumber (v : Value) : Gives g Anything v.asNumber := by
  unfold Value.asNumber
  split
  · trivial
  · exact .fault rfl

theorem gives_asNumeric (v : Value) : Gives g Anything v.asNumeric := by
  unfold Value.asNumeric
  split
  · trivial
  · trivial
  · exact .fault rfl

theorem gives_asString (v : Value) : Gives g Anything v.asString := by
  unfold Value.asString
  split
  · trivial
  · exact .fault rfl

theorem gives_asBoolean (v : Value) : Gives g Anything v.asBoolean := by
  unfold Value.asBoolean
  split
  · trivial
  · exact .fault rfl

theorem gives_asSymbol (v : Value) : Gives g Anything v.asSymbol := by
  unfold Value.asSymbol
  split
  · trivial
  · exact .fault rfl

/-- The elements of a sound list are sound. -/
theorem gives_asList {v : Value} (hv : v.Sound g) : Gives g Value.SoundAll v.asList := by
  unfold Value.asList
  split
  · cases hv with
    | list hitems => exact hitems
  · exact .fault rfl

/-! ## Procedures that compute -/

theorem gives_arithmeticResult (op : Arithmetic) (args : List Value) : Gives g Anything (op.result args) := by
  have hnumbers : Gives g (fun _ xs => ∀ x ∈ xs, True) (args.mapM Value.asNumber) := .mapM fun v _ => gives_asNumber v
  have hnumerics : Gives g (fun _ xs => ∀ x ∈ xs, True) (args.mapM Value.asNumeric) := .mapM fun v _ => gives_asNumeric v
  cases op with
  | add | multiply => exact hnumerics.bind fun _ _ => trivial
  | subtract | divide | exponential | logarithm =>
    refine hnumerics.bind fun xs _ => ?_
    split <;> first | trivial | exact .fault rfl
  | quaternion | remainder | power | squareRoot | real =>
    refine hnumbers.bind fun xs _ => ?_
    split <;> first | trivial | exact .fault rfl

/-- A number that is made is sound whatever stamp it has; only a quaternion carries one. -/
theorem gives_arithmetic (op : Arithmetic) (stamp : Stamp) (args : List Value) :
    Gives g (Value.SoundAs stamp) (op.run stamp args) := by
  refine (gives_arithmeticResult op args).bind fun x _ => ?_
  cases x with
  | real x => exact Value.Sound.soundAs (.number _ x) stamp
  | quaternion q => exact fun _ _ hm => .quaternion hm

theorem gives_compare (test : Float → Float → Bool) (args : List Value) :
    Gives g Value.Sound (Logic.compare test args) := by
  unfold Logic.compare
  split
  · exact (gives_asNumber _).bind fun _ _ => (gives_asNumber _).bind fun _ _ => .boolean _
  · exact .fault rfl

theorem gives_logic (op : Logic) (args : List Value) : Gives g Value.Sound (op.run args) := by
  have hbooleans : Gives g (fun _ xs => ∀ x ∈ xs, True) (args.mapM Value.asBoolean) := .mapM fun v _ => gives_asBoolean v
  unfold Logic.run
  split
  · split
    · exact .boolean _
    · exact .fault rfl
  iterate 4 exact gives_compare _ args
  · exact hbooleans.bind fun _ _ => .boolean _
  · exact hbooleans.bind fun _ _ => .boolean _
  · split
    · exact (gives_asBoolean _).bind fun _ _ => .boolean _
    · exact .fault rfl

/-- Lists are put together from sound parts, and taken apart into them. -/
theorem gives_sequence (op : Sequence) {args : List Value} (hargs : ∀ v ∈ args, v.Sound g) :
    Gives g Value.Sound (op.run args) := by
  unfold Sequence.run
  split
  · obtain ⟨hv, hvs⟩ : Value.Sound g _ ∧ Value.Sound g _ := by simpa using hargs
    exact (gives_asList hvs).bind fun vs hvs => .list (List.forall_mem_cons.2 ⟨hv, hvs⟩)
  · refine (gives_asList (hargs _ List.mem_cons_self)).bind fun vs hvs => ?_
    split
    · exact .fault rfl
    · exact (List.forall_mem_cons.1 hvs).1
  · refine (gives_asList (hargs _ List.mem_cons_self)).bind fun vs hvs => ?_
    split
    · exact .fault rfl
    · exact .list (List.forall_mem_cons.1 hvs).2
  · exact .list hargs
  · refine (Gives.mapM fun v hv => gives_asList (hargs v hv)).bind fun vss hvss => .list fun v hv => ?_
    rw [Sequence.joined_eq_flatten] at hv
    obtain ⟨vs, hvs, hv⟩ := List.mem_flatten.1 hv
    exact hvss vs hvs v hv
  · exact (gives_asList (hargs _ List.mem_cons_self)).bind fun _ _ => .boolean _
  · exact (gives_asList (hargs _ List.mem_cons_self)).bind fun _ _ => .number _ _
  · exact .string _ _
  · refine (gives_asString _).bind fun s _ => .list fun v hv => ?_
    obtain ⟨c, -, rfl⟩ := List.mem_map.1 hv
    exact .string _ _
  · exact .fault rfl

theorem gives_ofArgument (v : Value) : Gives g Anything (ErrorCode.ofArgument v) := by
  refine (gives_asNumber v).bind fun x _ => ?_
  split
  · trivial
  · exact .fault rfl

/-- An error value that is made is sound under a stamp if what it carries is. -/
theorem gives_createError {stamp : Stamp} {code description : Value} {payload : Option Value}
    (hp : ∀ v ∈ payload, v.Sound g) : Gives g (Value.SoundAs stamp) (ErrorHandling.create stamp code description payload) :=
  (gives_ofArgument code).bind fun _ _ => (gives_asString description).bind fun _ _ => fun _ hg hm =>
    .error hm fun v hv => (hp v hv).mono hg

/-- Only here can a fault have a payload: an error value that is raised gives it its own. -/
theorem gives_errors (op : ErrorHandling) (stamp : Stamp) {args : List Value} (hargs : ∀ v ∈ args, v.Sound g) :
    Gives g (Value.SoundAs stamp) (op.run stamp args) := by
  unfold ErrorHandling.run
  split
  next => exact gives_createError (by simp)
  next =>
    refine gives_createError fun v hv => hargs v ?_
    obtain rfl := Option.some.inj hv
    simp
  next =>
    cases hargs _ List.mem_cons_self with
    | error _ hp => exact hp
  next => exact Value.Sound.soundAs (.boolean _) stamp
  next => exact Value.Sound.soundAs (.boolean _) stamp
  next => exact Value.Sound.soundAs (.number _ _) stamp
  next => exact Value.Sound.soundAs (.string _ _) stamp
  next payload =>
    cases hargs _ List.mem_cons_self with
    | error _ hp =>
      cases payload with
      | none => exact Value.Sound.nil.soundAs stamp
      | some v => exact (hp v rfl).soundAs stamp
  next => exact (gives_ofArgument _).bind fun _ _ => Value.Sound.soundAs (.string _ _) stamp
  next => exact .fault rfl
  next => exact .fault rfl

/-- The fields of a sound struct are sound. -/
theorem gives_field {stamp : Stamp} {type : StructType} {values : List Value}
    (hs : Value.Sound g (.struct stamp type values)) (name : String) :
    Gives g Value.Sound (StructOperation.field type values name) := by
  unfold StructOperation.field
  split
  next v hv =>
    cases hs with
    | struct _ _ _ hvalues => exact hvalues v (List.mem_of_getElem? hv)
  next => exact .fault rfl

/-- A struct is made of a registered type with a value for each field, because the procedure that makes it takes just so
many arguments. -/
theorem gives_structs {b : Builtin} {op : StructOperation} (hb : b.Sound g) (hop : b.operation = .structs op)
    (stamp : Stamp) {args : List Value} (haccept : b.arity.accepts args.length) (hargs : ∀ v ∈ args, v.Sound g) :
    Gives g (Value.SoundAs stamp) (op.run stamp args) := by
  unfold StructOperation.run
  split
  next =>
    refine (gives_asSymbol _).bind fun name _ => ?_
    exact (gives_field (hargs _ List.mem_cons_self) name).imp fun hv => hv.soundAs stamp
  next => exact .fault rfl
  next =>
    cases hargs _ List.mem_cons_self with
    | struct htype _ _ _ => exact Value.Sound.soundAs (.structType htype) stamp
  next => exact .fault rfl
  next => exact Value.Sound.soundAs (.list (by simpa using fun _ _ => .symbol _)) stamp
  next => exact Value.Sound.soundAs (.list (by simpa using fun _ _ => .symbol _)) stamp
  next => exact .fault rfl
  next type =>
    obtain ⟨htype, harity⟩ := hb type hop
    have hcount : type.fields.length ≤ args.length ∧ args.length ≤ type.fields.length := by
      simpa [harity, Arity.exactly, Arity.accepts] using haccept
    exact fun _ hg hm => .struct (hg.types.subset htype) (Nat.le_antisymm hcount.2 hcount.1) hm
      (Value.soundAll_mono hg hargs)
  next => exact Value.Sound.soundAs (.boolean _) stamp
  next => exact Value.Sound.soundAs (.boolean _) stamp
  next =>
    split
    · split
      next v hv =>
        cases hargs _ List.mem_cons_self with
        | struct _ _ _ hvalues => exact (hvalues v (List.mem_of_getElem? hv)).soundAs stamp
      next => exact .fault rfl
    · exact .fault rfl
  next => exact .fault rfl
  next => exact .fault rfl

/-! ## Code from a text -/

mutual

/-- Nothing is embedded in a term that has a spelling. -/
theorem Term.Spelled.values : ∀ {t : Term α}, t.Spelled → t.values = []
  | .number _ _, _ => rfl
  | .string _ _, _ => rfl
  | .symbol _ _, _ => rfl
  | .boolean _ _, _ => rfl
  | .nil _, _ => rfl
  | .list _ ts, ht => by
    rw [Term.values]
    exact Term.SpelledAll.values ht
  | .marked _ _ t, ht => by
    rw [Term.values]
    exact Term.Spelled.values ht
  | .format _ ps, ht => by
    rw [Term.values]
    exact Term.SpelledParts.values ht.1
  | .embedded _ _, ht => ht.elim

/-- There is no value in what was read. -/
theorem Term.SpelledAll.values : ∀ {ts : List (Term α)}, Term.SpelledAll ts → Term.valuesAll ts = []
  | [], _ => rfl
  | t :: ts, hts => by
    rw [Term.valuesAll, Term.Spelled.values hts.1, Term.SpelledAll.values hts.2, List.append_nil]

theorem Term.SpelledParts.values : ∀ {behindText : Bool} {ps : List (Part α)}, Term.SpelledParts behindText ps →
    Part.valuesAll ps = []
  | _, [], _ => rfl
  | _, .text _ :: ps, hps => by
    rw [Part.valuesAll]
    exact Term.SpelledParts.values hps.2.2
  | _, .code t :: ps, hps => by
    rw [Part.valuesAll, Term.Spelled.values hps.1, Term.SpelledParts.values hps.2, List.append_nil]

end

/-- What is read from a text is sound, as there is no value in it. -/
theorem gives_readForms (source : String) : Gives g Term.SoundAll (Fault.readForms source) := by
  unfold Fault.readForms
  split
  next forms hread =>
    intro t ht v hv
    rw [(Reader.spelled_of_readSource hread t ht).values] at hv
    exact absurd hv List.not_mem_nil
  next => exact .fault rfl

theorem gives_readForm (source : String) : Gives g Term.Sound (Fault.readForm source) := by
  refine (gives_readForms source).bind fun ts hts => ?_
  split
  · exact hts _ List.mem_cons_self
  · exact .fault rfl

theorem gives_inspection (op : Inspection) (args : List Value) : Gives g Value.Sound (op.run args) := by
  unfold Inspection.run
  split
  · exact .symbol _
  · exact (gives_asString _).bind fun s _ => (gives_readForm s).bind fun t ht => ht.toValue
  · exact .fault rfl

/-! ## Rule macros -/

/-- Terms found for names, all of them sound. -/
def SoundBindings (g : Ground) (found : Bindings Code) : Prop := ∀ name t, found.value? name = some t → t.Sound g

theorem SoundBindings.nil : SoundBindings g [] := by simp [SoundBindings, Bindings.value?]

theorem SoundBindings.mono {h : Ground} (hg : g.Grows h) {found : Bindings Code} (hf : SoundBindings g found) :
    SoundBindings h found :=
  fun name t ht => (hf name t ht).mono hg

/-- A pattern variable that is bound to a sound term spoils nothing. -/
theorem SoundBindings.put {found : Bindings Code} (hf : SoundBindings g found) (name : String) {t : Code}
    (ht : t.Sound g) : SoundBindings g (found.put name t) := by
  intro n u hu
  rw [Bindings.value?_put] at hu
  split at hu
  · obtain rfl := Option.some.inj hu
    exact ht
  · exact hf n u hu

namespace Expansion

theorem gives_matchVariable {pattern : Code} {name : String} {t : Code} {found : Bindings Code} (ht : t.Sound g)
    (hf : SoundBindings g found) : Gives g SoundBindings (matchVariable pattern name t found) := by
  unfold matchVariable
  split
  · split
    · exact hf.put name ht
    · exact .fault rfl
  · exact hf.put name ht

mutual

/-- What a pattern finds in sound code is sound. -/
theorem gives_matchTerm (name : String) : ∀ (pattern : Code) {t : Code} {found : Bindings Code}, t.Sound g →
    SoundBindings g found → Gives g SoundBindings (matchTerm name pattern t found)
  | .symbol pos x, t, found, ht, hf => by
    rw [matchTerm]
    split
    · split
      · exact hf
      · exact .fault rfl
    · exact gives_matchVariable ht hf
  | .list pos ps, t, found, ht, hf => by
    cases t with
    | list _ ts =>
      rw [matchTerm]
      split
      · exact gives_matchAll name ps (Term.sound_list.1 ht) hf
      · exact .fault rfl
    | _ => exact Fault.sound_of_none rfl
  | .number _ _, t, found, ht, hf | .string _ _, t, found, ht, hf | .boolean _ _, t, found, ht, hf
  | .nil _, t, found, ht, hf | .marked _ _ _, t, found, ht, hf | .format _ _, t, found, ht, hf
  | .embedded _ _, t, found, ht, hf => by
    rw [matchTerm]
    · split
      · exact hf
      · exact .fault rfl
    all_goals simp

/-- Matching binds variables to parts of the operands, and these are sound. -/
theorem gives_matchAll (name : String) : ∀ (patterns : List Code) {ts : List Code} {found : Bindings Code},
    (∀ t ∈ ts, t.Sound g) → SoundBindings g found → Gives g SoundBindings (matchAll name patterns ts found)
  | [], ts, found, _, hf => by
    rw [matchAll]
    · exact hf
    · simp
  | p :: ps, [], found, _, hf => by
    rw [matchAll]
    · exact hf
    · simp
  | p :: ps, t :: ts, found, hts, hf => by
    obtain ⟨ht, hts⟩ := List.forall_mem_cons.1 hts
    have hfirst := gives_matchTerm name p ht hf
    rw [matchAll]
    cases hm : matchTerm name p t found with
    | ok found' =>
      rw [hm] at hfirst
      exact gives_matchAll name ps hts hfirst
    | error f =>
      rw [hm] at hfirst
      exact hfirst

end

mutual

/-- Sound code stays sound when sound terms are put for its symbols. -/
theorem sound_substitute {found : Bindings Code} (hf : SoundBindings g found) : ∀ {t : Code}, t.Sound g →
    (substitute found t).Sound g
  | .symbol pos name, ht => by
    rw [substitute]
    cases hv : found.value? name with
    | none => exact ht
    | some u => exact hf name u hv
  | .list _ _, ht => Term.sound_list.2 (sound_substituteAll hf (Term.sound_list.1 ht))
  | .marked _ _ _, ht => Term.sound_marked.2 (sound_substitute hf (Term.sound_marked.1 ht))
  | .format _ _, ht => Term.sound_format.2 (sound_substituteParts hf (Term.sound_format.1 ht))
  | .number _ _, ht | .string _ _, ht | .boolean _ _, ht | .nil _, ht | .embedded _ _, ht => ht

theorem sound_substituteAll {found : Bindings Code} (hf : SoundBindings g found) : ∀ {ts : List Code},
    (∀ t ∈ ts, t.Sound g) → ∀ t ∈ substituteAll found ts, t.Sound g
  | [], _ => by simp [substituteAll]
  | _ :: _, hts => by
    obtain ⟨ht, hts⟩ := List.forall_mem_cons.1 hts
    exact List.forall_mem_cons.2 ⟨sound_substitute hf ht, sound_substituteAll hf hts⟩

theorem sound_substituteParts {found : Bindings Code} (hf : SoundBindings g found) : ∀ {ps : List (Part Value)},
    (∀ t, Part.code t ∈ ps → t.Sound g) → ∀ t, Part.code t ∈ substituteParts found ps → t.Sound g
  | [], _, t, hm => absurd hm List.not_mem_nil
  | .text _ :: ps, hps, t, hm => by
    have hm : Part.code t ∈ substituteParts found ps := by simpa [substituteParts] using hm
    exact sound_substituteParts hf (fun t ht => hps t (List.mem_cons_of_mem _ ht)) t hm
  | .code u :: _, hps, t, hm => by
    rcases List.mem_cons.1 hm with he | hm
    · obtain rfl := Part.code.inj he
      exact sound_substitute hf (hps u List.mem_cons_self)
    · exact sound_substituteParts hf (fun t ht => hps t (List.mem_cons_of_mem _ ht)) t hm

end

/-- An expansion is put together from the template and parts of the operands. -/
theorem gives_expandRule (name : String) (pattern : List Code) {template : Code} {operands : List Code}
    (ht : template.Sound g) (hos : ∀ t ∈ operands, t.Sound g) :
    Gives g Term.Sound (expandRule name pattern template operands) := by
  unfold expandRule
  split
  · have hfound := gives_matchAll name pattern hos .nil
    cases hm : matchAll name pattern operands [] with
    | ok found =>
      rw [hm] at hfound
      exact sound_substitute hfound ht
    | error f =>
      rw [hm] at hfound
      exact hfound
  · exact .fault rfl

theorem sound_operandsByName {pairs : List (String × Code)} (hp : ∀ p ∈ pairs, p.2.Sound g) :
    SoundBindings g (operandsByName pairs) := by
  have hfold : ∀ (pairs : List (String × Code)) (args : Bindings Code), (∀ p ∈ pairs, p.2.Sound g) →
      SoundBindings g args → SoundBindings g (pairs.foldl (fun args p => args.put p.1 p.2) args) := by
    intro pairs
    induction pairs with
    | nil => exact fun args _ hargs => hargs
    | cons p pairs ih =>
      intro args hp hargs
      obtain ⟨hfirst, hp⟩ := List.forall_mem_cons.1 hp
      exact ih _ hp (hargs.put p.1 hfirst)
  exact hfold pairs [] hp .nil

end Expansion

end Lisplet
