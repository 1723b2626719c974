import Lisplet.Proofs.Evaluation.Moves
import Lisplet.Proofs.Likeness.Procedures
/-!
# Alike actions

Two actions are alike when, started in stores that are seen as the same, they end in such stores, with the same kind of end:
results that are the same through given functions, or signals that are seen as the same (`Alike`). How they are compared is
said by a `Comparison`: the views in which the first and the second run are seen, whether details and trace count, and with
which signals one of the runs may stop early. Actions that are made of alike parts are alike (`Alike.bind`), and so are the
primitives on alike arguments.
-/
namespace Lisplet

variable {w : View} {α β γ δ : Type}

/-! ## Bindings and frames -/

namespace Bindings

variable {ν μ : Type} (g : ν → μ)

/-- Changing every value changes the one that is found. -/
theorem value?_through (b : Bindings ν) (name : String) : (b.through g).value? name = (b.value? name).map g := by
  induction b with
  | nil => rfl
  | cons p rest ih =>
    obtain ⟨m, v⟩ := p
    show value? ((m, g v) :: through g rest) name = _
    rw [value?_cons, value?_cons, ih]
    split <;> rfl

theorem through_zip (names : List String) (vs : List ν) : through g (names.zip vs) = names.zip (vs.map g) := by
  rw [List.zip_map_right]
  rfl

theorem through_replace (name : String) (v : ν) (b : Bindings ν) :
    (replace name v b).through g = replace name (g v) (b.through g) := by
  induction b with
  | nil => rfl
  | cons p rest ih =>
    obtain ⟨m, u⟩ := p
    show through g (if m = name then (name, v) :: rest else (m, u) :: replace name v rest) =
      if m = name then (name, g v) :: through g rest else (m, g u) :: replace name (g v) (through g rest)
    rw [← ih]
    split <;> rfl

/-- A binding is put in the same place whether the values are changed before or after. -/
theorem through_put (b : Bindings ν) (name : String) (v : ν) :
    (b.put name v).through g = (b.through g).put name (g v) := by
  rw [put, put, value?_through, Option.isSome_map]
  split
  · exact through_replace g name v b
  · rfl

end Bindings

namespace Frames

@[simp] theorem size_seen (f : Frames Value) : (f.seen w).size = f.size := by simp [seen, size]

theorem bindings_seen (f : Frames Value) (k : Nat) :
    (f.seen w).bindings k = (f.bindings k).through (Value.seen w) := by
  rw [seen, bindings, bindings, Array.getElem?_map]
  cases f.table[k]? <;> rfl

theorem value?_seen (f : Frames Value) (k : Nat) (name : String) :
    (f.seen w).value? k name = (f.value? k name).map (Value.seen w) := by
  rw [value?, value?, bindings_seen, Bindings.value?_through]

/-- A name is found in the same frame in every view, and what it is bound to is seen. -/
theorem lookup?_seen (f : Frames Value) (scope : Scope) (name : String) :
    (f.seen w).lookup? scope name = (f.lookup? scope name).map (Value.seen w) := by
  rw [lookup?, lookup?]
  induction scope.chain with
  | nil => rfl
  | cons k rest ih =>
    rw [List.findSome?_cons, List.findSome?_cons, value?_seen]
    cases f.value? k name with
    | none => exact ih
    | some v => rfl

theorem owner?_seen (f : Frames Value) (scope : Scope) (name : String) :
    (f.seen w).owner? scope name = f.owner? scope name := by
  simp only [owner?, value?_seen, Option.isSome_map]

/-- Frames that are seen and then changed are frames that are changed and then seen. -/
theorem seen_put (f : Frames Value) (k : Nat) (name : String) (v : Value) :
    (f.put k name v).seen w = (f.seen w).put k name (v.seen w) := by
  simp only [put, seen]
  congr 1
  apply Array.ext_getElem?
  intro i
  simp only [Array.getElem?_map, Array.getElem?_modify]
  split
  · cases f.table[i]? with
    | none => rfl
    | some b => exact congrArg some (Bindings.through_put (Value.seen w) b name v)
  · rfl

theorem seen_grow (f : Frames Value) : f.grow.seen w = (f.seen w).grow := by
  simp [grow, seen, Bindings.through]

end Frames

/-! ## Comparisons -/

/-- How two runs are compared. The first is seen in a view that spells nothing out, and places are seen alike in both. -/
structure Comparison where
  left : View
  right : View
  /-- Whether the details of faults count, and with them the trace. -/
  detailed : Bool
  /-- The signals with which the first run may stop before it can be compared. -/
  early : Signal → Prop
  /-- The signals with which the second run may. -/
  late : Signal → Prop
  short : left.Short
  place_eq : ∀ p, left.place p = right.place p
  traced_eq : left.traced = right.traced
  /-- Details are compared only if nothing is spelled out. -/
  exact : detailed = true → right.Short
  untraced : detailed = false → left.traced = false
  early_fault : ∀ f, ¬ early (.fault f)
  late_fault : ∀ f, ¬ late (.fault f)
  /-- Nothing is spelled out in code that was read from a text, and nothing nowhere. -/
  reads : ∀ {source ts}, Fault.readForms source = .ok ts → ts.map (Term.seen left) = ts.map (Term.seen right)
  nowhere : right.spells .nowhere = false
  /-- Where something is spelled out, all places are one. -/
  placeless : ∀ {p}, right.spells p = true → ∀ q q', right.place q = right.place q'

namespace Comparison

/-- The comparison of two runs in one view, in which all that is seen counts. -/
def exactly (w : View) [w.Short] : Comparison where
  left := w
  right := w
  detailed := true
  early := fun _ => False
  late := fun _ => False
  short := inferInstance
  place_eq := fun _ => rfl
  traced_eq := rfl
  exact := fun _ => inferInstance
  untraced := nofun
  early_fault := fun _ => id
  late_fault := fun _ => id
  reads := fun _ => rfl
  nowhere := View.Short.spells_eq _
  placeless := fun h => by rw [View.Short.spells_eq] at h; cases h

variable (c : Comparison)

instance : c.left.Short := c.short

/-- A fault as far as it counts. -/
def told (f : Fault) : Fault := bif c.detailed then f else { f with detail := none }

/-- A signal as far as it counts. -/
def heard : Signal → Signal
  | .fault f => .fault (c.told f)
  | e => e

/-- Faults that differ in their details only, and not in these if they count. -/
theorem told_eq {f f' : Fault} (hdetail : c.detailed = true → f.detail = f'.detail)
    (hrest : { f with detail := none } = { f' with detail := none }) : c.told f = c.told f' := by
  unfold told
  cases h : c.detailed with
  | true =>
    have hd := hdetail h
    cases f
    cases f'
    simp_all
  | false => exact hrest

end Comparison

variable {c : Comparison}

/-- Results that are compared: values that are the same through `g` and `g'`, or faults that are, as far as they count. -/
inductive Comparison.Results (c : Comparison) (g : α → γ) (g' : β → γ) : Except Fault α → Except Fault β → Prop
  | ok {a : α} {b : β} : g a = g' b → Results c g g' (.ok a) (.ok b)
  | error {f f' : Fault} : c.told (f.seen c.left) = c.told (f'.seen c.right) → Results c g g' (.error f) (.error f')

namespace Comparison.Results

/-- Computations that are seen as the same have results that are. -/
theorem of_seen {g : α → γ} {g' : β → γ} {x : Except Fault α} {x' : Except Fault β}
    (h : seenResult c.left g x = seenResult c.right g' x') : Results c g g' x x' := by
  cases x with
  | ok a =>
    cases x' with
    | ok a' => exact .ok (Except.ok.inj h)
    | error f' => cases h
  | error f =>
    cases x' with
    | ok a' => cases h
    | error f' => exact .error (congrArg c.told (Except.error.inj h))

/-- A fault that carries no value has only its place to be seen. -/
theorem seen_of_payload {f : Fault} (h : f.payload = none) : f.seen c.left = f.seen c.right := by
  obtain ⟨code, description, detail, payload, position⟩ := f
  obtain rfl : payload = none := h
  cases position <;> simp [Fault.seen, c.place_eq]

/-- The same result on both sides. -/
theorem refl {P : α → Prop} {g g' : α → γ} {x : Except Fault α} (hx : Unladen P x) (hg : ∀ a, P a → g a = g' a) :
    Results c g g' x x := by
  cases hx with
  | ok ha => exact .ok (hg _ ha)
  | error hf => exact .error (by rw [seen_of_payload hf])

/-- Alike actions that go on in alike ways from alike results are alike. -/
theorem bind {α' β' γ' : Type} {g : α → γ} {g' : β → γ} {k : α' → γ'} {k' : β' → γ'} {x : Except Fault α}
    {x' : Except Fault β} {f : α → Except Fault α'} {f' : β → Except Fault β'} (h : Results c g g' x x')
    (hf : ∀ a b, g a = g' b → Results c k k' (f a) (f' b)) : Results c k k' (x >>= f) (x' >>= f') := by
  cases h with
  | ok hab => exact hf _ _ hab
  | error he => exact .error he

end Comparison.Results

/-! ## Ends and actions -/

/-- What a view leaves as it is is the same in stores that are seen as the same. -/
theorem Store.eq_of_seen {v w : View} (field : Store → α) {s s' : Store} (hs : s.seen v = s'.seen w)
    (hf : ∀ (u : View) (t : Store), field (t.seen u) = field t) : field s = field s' := by
  rw [← hf v s, hs, hf]

/-- Ends of one kind, with results that are the same through `g` and states that are the same through `see`. -/
inductive Agree {σ : Type} (w : View) (see : σ → σ) (g : α → β) :
    EStateM.Result Signal σ α → EStateM.Result Signal σ α → Prop
  | ok {a a' : α} {s s' : σ} : g a = g a' → see s = see s' → Agree w see g (.ok a s) (.ok a' s')
  | error {e e' : Signal} {s s' : σ} : e.seen w = e'.seen w → see s = see s' →
      Agree w see g (.error e s) (.error e' s')

theorem Agree.of_ok {σ : Type} {see : σ → σ} {g : α → β} {r : EStateM.Result Signal σ α} {a : α} {s : σ}
    (h : Agree w see g r (.ok a s)) : ∃ a' s', r = .ok a' s' ∧ g a' = g a ∧ see s' = see s := by
  cases h with
  | ok ha hs => exact ⟨_, _, rfl, ha, hs⟩

theorem Agree.of_error {σ : Type} {see : σ → σ} {g : α → β} {r : EStateM.Result Signal σ α} {e : Signal} {s : σ}
    (h : Agree w see g r (.error e s)) : ∃ e' s', r = .error e' s' ∧ e'.seen w = e.seen w ∧ see s' = see s := by
  cases h with
  | error he hs => exact ⟨_, _, rfl, he, hs⟩

/-- Whatever goes on from alike ends ends alike. -/
theorem Agree.bind {σ : Type} {see : σ → σ} {g : α → β} {k : γ → δ} {act act' : EStateM Signal σ α}
    {f f' : α → EStateM Signal σ γ} {s s' : σ} (h : Agree w see g (act s) (act' s'))
    (hf : ∀ a a' t t', g a = g a' → see t = see t' → Agree w see k (f a t) (f' a' t')) :
    Agree w see k ((act >>= f) s) ((act' >>= f') s') := by
  show Agree w see k (EStateM.bind act f s) (EStateM.bind act' f' s')
  unfold EStateM.bind
  generalize act s = x at *
  generalize act' s' = y at *
  cases h with
  | ok ha ht => exact hf _ _ _ _ ha ht
  | error he ht => exact .error he ht

/-- Ends that are compared: of one kind, with results that are the same through `g` and `g'`, unless one of the runs stopped
before it can be compared. -/
inductive Compares (c : Comparison) (g : α → γ) (g' : β → γ) :
    EStateM.Result Signal Store α → EStateM.Result Signal Store β → Prop
  | ok {a : α} {b : β} {s s' : Store} : g a = g' b → s.seen c.left = s'.seen c.right → Compares c g g' (.ok a s) (.ok b s')
  | error {e e' : Signal} {s s' : Store} : c.heard (e.seen c.left) = c.heard (e'.seen c.right) →
      s.seen c.left = s'.seen c.right → Compares c g g' (.error e s) (.error e' s')
  | early {e : Signal} {s : Store} {y : EStateM.Result Signal Store β} : c.early e → Compares c g g' (.error e s) y
  | late {x : EStateM.Result Signal Store α} {e : Signal} {s : Store} : c.late e → Compares c g g' x (.error e s)

/-- In one view everything counts, and so every signal is heard as it is. -/
theorem Comparison.heard_exactly [w.Short] (e : Signal) : (Comparison.exactly w).heard e = e := by cases e <;> rfl

/-- In one view ends are compared by agreeing. -/
theorem Compares.agree [w.Short] {g : α → β} {x y : EStateM.Result Signal Store α}
    (h : Compares (.exactly w) g g x y) : Agree w (Store.seen w) g x y := by
  cases h with
  | ok ha hs => exact .ok ha hs
  | error he hs =>
    rw [Comparison.heard_exactly, Comparison.heard_exactly] at he
    exact .error he hs
  | early he => exact he.elim
  | late he => exact he.elim

/-- Ends that agree in one view are compared in it. -/
theorem Agree.compares [w.Short] {g : α → β} {x y : EStateM.Result Signal Store α}
    (h : Agree w (Store.seen w) g x y) : Compares (.exactly w) g g x y := by
  cases h with
  | ok ha hs => exact .ok ha hs
  | error he hs => exact .error (congrArg _ he) hs

/-- Whatever goes on from alike ends ends alike. -/
theorem Compares.bind {α' β' γ' : Type} {g : α → γ} {g' : β → γ} {k : α' → γ'} {k' : β' → γ'} {act : Eval α} {act' : Eval β}
    {f : α → Eval α'} {f' : β → Eval β'} {s s' : Store} (h : Compares c g g' (act s) (act' s'))
    (hf : ∀ a b t t', act' s' = .ok b t' → g a = g' b → t.seen c.left = t'.seen c.right →
      Compares c k k' (f a t) (f' b t')) :
    Compares c k k' ((act >>= f) s) ((act' >>= f') s') := by
  generalize hact : act s = x at h
  generalize hact' : act' s' = y at h
  cases h with
  | ok ha ht =>
    rw [EStateM.bind_of_ok hact, EStateM.bind_of_ok hact']
    exact hf _ _ _ _ hact' ha ht
  | error he ht =>
    rw [EStateM.bind_of_error hact, EStateM.bind_of_error hact']
    exact .error he ht
  | early he =>
    rw [EStateM.bind_of_error hact]
    exact .early he
  | late he =>
    rw [EStateM.bind_of_error hact']
    exact .late he

/-- Actions that end alike when they start alike. -/
def Alike (c : Comparison) (g : α → γ) (g' : β → γ) (act : Eval α) (act' : Eval β) : Prop :=
  ∀ s s', s.seen c.left = s'.seen c.right → Compares c g g' (act s) (act' s')

namespace Alike

variable {g : α → γ} {g' : β → γ}

theorem pure {a : α} {b : β} (h : g a = g' b) : Alike c g g' (pure a : Eval α) (pure b : Eval β) :=
  fun _ _ hs => .ok h hs

/-- Signals that are heard as the same end both runs. -/
theorem throw {e e' : Signal} (h : c.heard (e.seen c.left) = c.heard (e'.seen c.right)) :
    Alike c g g' (throw e : Eval α) (throw e' : Eval β) :=
  fun _ _ hs => .error h hs

/-- Faults that are the same as far as they count. -/
theorem told {f f' : Fault} (h : c.told (f.seen c.left) = c.told (f'.seen c.right)) :
    Alike c g g' (Eval.fault f : Eval α) (Eval.fault f' : Eval β) :=
  throw (congrArg Signal.fault h)

theorem fault {f f' : Fault} (h : f.seen c.left = f'.seen c.right) :
    Alike c g g' (Eval.fault f : Eval α) (Eval.fault f' : Eval β) :=
  told (congrArg c.told h)

theorem bind {α' β' γ' : Type} {k : α' → γ'} {k' : β' → γ'} {act : Eval α} {act' : Eval β} {f : α → Eval α'}
    {f' : β → Eval β'} (h : Alike c g g' act act') (hf : ∀ a b, g a = g' b → Alike c k k' (f a) (f' b)) :
    Alike c k k' (act >>= f) (act' >>= f') := by
  intro s s' hs
  exact (h s s' hs).bind fun a b t t' _ hab ht => hf a b hab t t' ht

/-- What does not see results differently goes on with one result. -/
theorem bindId {α' β' γ' : Type} {k : α' → γ'} {k' : β' → γ'} {act act' : Eval α} {f : α → Eval α'} {f' : α → Eval β'}
    (h : Alike c id id act act') (hf : ∀ a, Alike c k k' (f a) (f' a)) : Alike c k k' (act >>= f) (act' >>= f') :=
  bind h fun a a' ha => by
    obtain rfl : a = a' := ha
    exact hf a

theorem ite {p : Prop} [Decidable p] {act other : Eval α} {act' other' : Eval β} (h : Alike c g g' act act')
    (h' : Alike c g g' other other') : Alike c g g' (if p then act else other) (if p then act' else other') := by
  split
  · exact h
  · exact h'

/-- Stores that are seen as the same are got as such. -/
theorem get : Alike c (Store.seen c.left) (Store.seen c.right) (get : Eval Store) (MonadState.get : Eval Store) :=
  fun _ _ hs => .ok hs hs

theorem ofExcept {x : Except Fault α} {x' : Except Fault β} (h : c.Results g g' x x') :
    Alike c g g' (Eval.ofExcept x) (Eval.ofExcept x') := by
  cases h with
  | ok ha => exact pure ha
  | error he => exact told he

theorem answer (q : Question) (a : Option α) : Alike c id id (Eval.answer q a) (Eval.answer q a) := by
  cases a with
  | some a => exact pure rfl
  | none => exact throw rfl

/-! ## Primitives -/

theorem freshStamp : Alike c id id Eval.freshStamp Eval.freshStamp := by
  intro s s' hs
  have hn : s.nextStamp = s'.nextStamp := Store.eq_of_seen Store.nextStamp hs fun _ _ => rfl
  exact .ok hn (congrArg (fun t : Store => { t with nextStamp := t.nextStamp + 1 }) hs)

theorem frames_seen {v w : View} {s s' : Store} (hs : s.seen v = s'.seen w) : s.frames.seen v = s'.frames.seen w :=
  congrArg Store.frames hs

/-- What a name is bound to is seen as the same. -/
theorem lookup?_seen {v w : View} {s s' : Store} (hs : s.seen v = s'.seen w) (scope : Scope) (name : String) :
    (s.frames.lookup? scope name).map (Value.seen v) = (s'.frames.lookup? scope name).map (Value.seen w) := by
  rw [← Frames.lookup?_seen, ← Frames.lookup?_seen, frames_seen hs]

theorem lookup? (scope : Scope) (name : String) :
    Alike c (Option.map (Value.seen c.left)) (Option.map (Value.seen c.right)) (Eval.lookup? scope name)
      (Eval.lookup? scope name) :=
  fun _ _ hs => .ok (lookup?_seen hs scope name) hs

theorem unbound_seen {v w : View} (registry : Registry) (name : String) {p q : Position} (h : v.place p = w.place q) :
    (Fault.unbound registry name p).seen v = (Fault.unbound registry name q).seen w := by
  unfold Fault.unbound
  split
  · rfl
  · simp [Fault.seen, h]

/-- A name is bound to alike values, or to none with faults at alike places. -/
theorem lookup (scope : Scope) (name : String) {p q : Position} (h : c.left.place p = c.right.place q) :
    Alike c (Value.seen c.left) (Value.seen c.right) (Eval.lookup scope name p) (Eval.lookup scope name q) := by
  refine bind get fun s s' hs => ?_
  have hv := lookup?_seen hs scope name
  have hr : s.registry = s'.registry := Store.eq_of_seen Store.registry hs fun _ _ => rfl
  revert hv
  cases s.frames.lookup? scope name with
  | none =>
    cases s'.frames.lookup? scope name with
    | none =>
      intro
      rw [hr]
      exact fault (unbound_seen s'.registry name h)
    | some v' => simp
  | some v =>
    cases s'.frames.lookup? scope name with
    | none => simp
    | some v' => exact fun hv => pure (Option.some.inj hv)

theorem put_seen {v w : View} {s s' : Store} (hs : s.seen v = s'.seen w) (k : Nat) (name : String) {a b : Value}
    (h : a.seen v = b.seen w) :
    Store.seen v { s with frames := s.frames.put k name a } =
      Store.seen w { s' with frames := s'.frames.put k name b } := by
  have e : ∀ (u : View) (t : Store) (d : Value), Store.seen u { t with frames := t.frames.put k name d } =
      { t.seen u with frames := (t.seen u).frames.put k name (d.seen u) } := by
    intro u t d
    simp only [Store.seen, Frames.seen_put]
  rw [e, e, hs, h]

/-- A reserved name is refused on both sides; otherwise alike values are bound in one frame. -/
theorem define (scope : Scope) (name : String) {a b : Value} (h : a.seen c.left = b.seen c.right) :
    Alike c id id (Eval.define scope name a) (Eval.define scope name b) := by
  unfold Eval.define
  split
  · exact fault rfl
  · exact fun s s' hs => .ok rfl (put_seen hs scope.own name h)

/-- Both assign in the frame that has the name, or refuse in the same way. -/
theorem assign (scope : Scope) (name : String) {a b : Value} (h : a.seen c.left = b.seen c.right) :
    Alike c id id (Eval.assign scope name a) (Eval.assign scope name b) := by
  have ho : Alike c id id (Eval.owner? scope name) (Eval.owner? scope name) := by
    intro s s' hs
    refine .ok ?_ hs
    rw [← Frames.owner?_seen (w := c.left) s.frames, ← Frames.owner?_seen (w := c.right) s'.frames, frames_seen hs]
  refine bindId ho fun owner => ?_
  cases owner with
  | none => exact fault rfl
  | some frame => exact fun s s' hs => .ok rfl (put_seen hs frame name h)

theorem childScope (scope : Scope) : Alike c id id (Eval.childScope scope) (Eval.childScope scope) := by
  intro s s' hs
  have e : ∀ (u : View) (t : Store), Store.seen u { t with frames := t.frames.grow } =
      { t.seen u with frames := (t.seen u).frames.grow } := by
    intro u t
    simp only [Store.seen, Frames.seen_grow]
  have hsize : s.frames.size = s'.frames.size := by
    rw [← Frames.size_seen (w := c.left) s.frames, ← Frames.size_seen (w := c.right) s'.frames, frames_seen hs]
  refine .ok ?_ ?_
  · show Frames.inside _ _ = Frames.inside _ _
    rw [Frames.inside, Frames.inside, hsize]
  · show Store.seen c.left { s with frames := s.frames.grow } = Store.seen c.right { s' with frames := s'.frames.grow }
    rw [e, e, hs]

/-- The calling scopes are put back, and these are the same as the stores are. -/
theorem withCaller (scope : Scope) {act : Eval α} {act' : Eval β} {s s' : Store} (hs : s.seen c.left = s'.seen c.right)
    (h : Compares c g g' (act { s with caller := scope }) (act' { s' with caller := scope })) :
    Compares c g g' (Eval.withCaller scope act s) (Eval.withCaller scope act' s') := by
  have hc : s.caller = s'.caller := Store.eq_of_seen Store.caller hs fun _ _ => rfl
  simp only [Eval.withCaller]
  generalize act { s with caller := scope } = x at *
  generalize act' { s' with caller := scope } = y at *
  have hback {t t' : Store} (ht : t.seen c.left = t'.seen c.right) :
      Store.seen c.left { t with caller := s.caller } = Store.seen c.right { t' with caller := s'.caller } := by
    rw [hc]
    exact congrArg (fun t : Store => { t with caller := s'.caller }) ht
  cases h with
  | ok ha ht => exact .ok ha (hback ht)
  | error he ht => exact .error he (hback ht)
  | early he => exact .early he
  | late he => exact .late he

theorem withImport (path : String) {act : Eval α} {act' : Eval β} (h : Alike c g g' act act') :
    Alike c g g' (Eval.withImport path act) (Eval.withImport path act') := by
  intro s s' hs
  have hd : s.directory = s'.directory := Store.eq_of_seen Store.directory hs fun _ _ => rfl
  have hact := h { s with directory := Path.parent path, importing := path :: s.importing }
    { s' with directory := Path.parent path, importing := path :: s'.importing }
    (congrArg (fun t : Store => { t with directory := Path.parent path, importing := path :: t.importing }) hs)
  simp only [Eval.withImport]
  generalize act { s with directory := Path.parent path, importing := path :: s.importing } = x at *
  generalize act' { s' with directory := Path.parent path, importing := path :: s'.importing } = y at *
  have hback {t t' : Store} (ht : t.seen c.left = t'.seen c.right) :
      Store.seen c.left { t with directory := s.directory, importing := t.importing.erase path } =
        Store.seen c.right { t' with directory := s'.directory, importing := t'.importing.erase path } := by
    rw [hd]
    exact congrArg (fun t : Store => { t with directory := s'.directory, importing := t.importing.erase path }) ht
  cases hact with
  | ok ha ht => exact .ok ha (hback ht)
  | error he ht => exact .error he (hback ht)
  | early he => exact .early he
  | late he => exact .late he

/-- Faults that are heard as the same are the same as far as they count. -/
theorem told_of_heard {f f' : Fault} (h : c.heard (.fault f) = c.heard (.fault f')) :
    { f with detail := none } = { f' with detail := none } := by
  have htold : c.told f = c.told f' := Signal.fault.inj h
  unfold Comparison.told at htold
  cases hd : c.detailed with
  | true =>
    rw [hd] at htold
    exact congrArg (fun f : Fault => { f with detail := none }) htold
  | false =>
    rw [hd] at htold
    exact htold

/-- A fault is caught on both sides, and a signal that stops a run early is caught on neither. -/
theorem catching {body body' : Eval Value} {handle handle' : Fault → Eval Value}
    (hb : Alike c (Value.seen c.left) (Value.seen c.right) body body')
    (hh : ∀ f f', ({ f.seen c.left with detail := none } : Fault) = { f'.seen c.right with detail := none } →
      Alike c (Value.seen c.left) (Value.seen c.right) (handle f) (handle' f')) :
    Alike c (Value.seen c.left) (Value.seen c.right) (Recursion.catching body handle) (Recursion.catching body' handle') := by
  intro s s' hs
  have hbody := hb s s' hs
  unfold Recursion.catching
  generalize body s = x at *
  generalize body' s' = y at *
  cases hbody with
  | ok ha ht => exact .ok ha ht
  | @error e e' t t' he ht =>
    -- Only a fault is handled, and only a fault is seen as a fault.
    cases e <;> cases e' <;> first
      | exact hh _ _ (told_of_heard he) _ _ ht
      | exact .error he ht
      | cases he
  | @early e t y he =>
    cases e with
    | fault f => exact absurd he (c.early_fault f)
    | _ => exact .early he
  | @late x e t he =>
    cases e with
    | fault f => exact absurd he (c.late_fault f)
    | _ => exact .late he

/-! ## Trace, input and output -/

theorem log_push_trace (hw : w.traced = false) (log : Array Emission) (line : String) :
    w.log (log.push (.trace line)) = w.log log := by
  simp [View.log, hw, Emission.trace?]

theorem log_push {e : Emission} (he : e.trace? = none) (log : Array Emission) :
    w.log (log.push e) = (w.log log).push e := by
  unfold View.log
  split
  · rfl
  · simp [he]

/-- A line more in the trace is a line more in what is seen, or nothing where the trace is not. -/
theorem trace_seen (w : View) (t : Store) (line : String) :
    Store.seen w (if t.tracing then { t with log := t.log.push (.trace line) } else t) =
      if (t.seen w).tracing then { t.seen w with log := (t.seen w).log.push (.trace line) } else t.seen w := by
  -- A view without the trace sees no tracing either, so that nothing is pushed on its side.
  cases hw : w.traced with
  | true => cases ht : t.tracing <;> simp [Store.seen, View.log, hw, ht]
  | false => cases ht : t.tracing <;> simp [Store.seen, hw, ht, log_push_trace hw]

/-- The lines need to be the same only if the trace counts. -/
theorem trace {message message' : Unit → String} (h : c.detailed = true → message () = message' ()) :
    Alike c id id (Eval.trace message) (Eval.trace message') := by
  intro s s' hs
  rw [Eval.trace_apply, Eval.trace_apply]
  refine .ok rfl ?_
  rw [trace_seen, trace_seen, hs]
  cases hd : c.detailed with
  | true => rw [h hd]
  | false =>
    have hplain : (s'.seen c.right).tracing = false := by simp [Store.seen, ← c.traced_eq, c.untraced hd]
    rw [hplain]
    rfl

/-- What is handed out is told apart from the trace, so that it is seen in every view. -/
theorem emit (sink : Sink) {e : Emission} (he : e.trace? = none) :
    Alike c id id (Eval.emit sink e) (Eval.emit sink e) := by
  have hpush : Alike c id id (modify fun s : Store => { s with log := s.log.push e } : Eval PUnit)
      (modify fun s => { s with log := s.log.push e } : Eval PUnit) := by
    have h : ∀ (u : View) (t : Store), Store.seen u { t with log := t.log.push e } =
        { t.seen u with log := (t.seen u).log.push e } := by
      intro u t
      simp only [Store.seen, log_push he]
    intro s s' hs
    refine .ok rfl ?_
    show Store.seen c.left { s with log := s.log.push e } = Store.seen c.right { s' with log := s'.log.push e }
    rw [h, h, hs]
  unfold Eval.emit
  split
  · exact fault rfl
  · refine bindId hpush fun _ => ?_
    split
    · exact fault rfl
    · exact pure rfl

theorem write (text : String) : Alike c id id (Eval.write text) (Eval.write text) := by
  refine bind get fun s s' hs => ?_
  rw [Store.eq_of_seen Store.output hs fun _ _ => rfl]
  exact emit s'.output rfl

theorem writeError (text : String) : Alike c id id (Eval.writeError text) (Eval.writeError text) := by
  refine bind get fun s s' hs => ?_
  rw [Store.eq_of_seen Store.errorOutput hs fun _ _ => rfl]
  exact emit s'.errorOutput rfl

theorem readLine : Alike c id id Eval.readLine Eval.readLine := by
  intro s s' hs
  have hi : s.input = s'.input := Store.eq_of_seen Store.input hs fun _ _ => rfl
  have hset (input : Input) : Store.seen c.left { s with input := input } = Store.seen c.right { s' with input := input } :=
    congrArg (fun t : Store => { t with input := input }) hs
  simp only [Eval.readLine, hi]
  cases s'.input.readLine.1 with
  | line text => exact .ok rfl (hset _)
  | ended => exact .ok rfl (hset _)
  | failed message => exact .error rfl (hset _)
  | awaiting => exact .error rfl hs

theorem readFile (path : String) : Alike c id id (Eval.readFile path) (Eval.readFile path) := by
  refine bind get fun s s' hs => ?_
  rw [Store.eq_of_seen Store.world hs fun _ _ => rfl]
  refine bindId (answer _ _) fun text => ?_
  cases text with
  | ok text => exact pure rfl
  | error e => exact fault rfl

theorem currentTime : Alike c id id Eval.currentTime Eval.currentTime := by
  refine bind get fun s s' hs => ?_
  have hw : s.world = s'.world := Store.eq_of_seen Store.world hs fun _ _ => rfl
  have ht : s.timesAsked = s'.timesAsked := Store.eq_of_seen Store.timesAsked hs fun _ _ => rfl
  rw [hw, ht]
  refine bindId (answer _ _) fun t => bindId ?_ fun _ => pure rfl
  exact fun _ _ _ => .ok rfl (congrArg (fun t : Store => { t with timesAsked := s'.timesAsked + 1, world := s'.world }) hs)

theorem chance : Alike c id id Eval.chance Eval.chance := by
  refine bind get fun s s' hs => ?_
  have hw : s.world = s'.world := Store.eq_of_seen Store.world hs fun _ _ => rfl
  have hc : s.chancesAsked = s'.chancesAsked := Store.eq_of_seen Store.chancesAsked hs fun _ _ => rfl
  rw [hw, hc]
  refine bindId ?_ fun _ => pure rfl
  exact fun _ _ _ => .ok rfl (congrArg (fun t : Store => { t with chancesAsked := s'.chancesAsked + 1, world := s'.world }) hs)

end Alike

end Lisplet
