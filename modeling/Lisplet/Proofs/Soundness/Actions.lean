import Mathlib.Logic.Function.Basic
import Lisplet.Interpreter
import Lisplet.Proofs.Evaluation.Moves
import Lisplet.Proofs.Soundness.Values
/-!
# Actions that keep a store sound

A store is sound on a ground when its registry and its frames are those of the ground, every stamp that marks something has
been given out and every value that a frame binds is sound (`Store.Sound`). An action keeps this (`Keeps`) when, started in
a sound store, it ends in a store that is sound on a ground that has grown, with a result or a signal that is sound there.
Two actions in turn do when each of them does (`Keeps.bind`), and so do the primitives, given sound values to work with.
-/
namespace Lisplet

/-! ## Sound stores -/

/-- Scopes that have grown from the global one, by the number of their own frames: each is inside one that was there
before. -/
inductive ScopeTree : List Scope → Prop
  | global : ScopeTree [.global]
  | inside {scopes : List Scope} {outer : Scope} : ScopeTree scopes → outer ∈ scopes →
      ScopeTree (scopes ++ [⟨scopes.length, outer.chain⟩])

/-- A registry whose types are numbered in order and fit into its capacity. -/
structure Registry.Sound (r : Registry) : Prop where
  ids : ∀ (i : Nat) (type : StructType), r.types[i]? = some type → type.id = i
  bounded : 0 ≤ r.capacity → (r.size : Int) ≤ r.capacity

/-- A ground with a sound registry and a tree of scopes. -/
structure Ground.Sound (g : Ground) : Prop where
  registry : g.registry.Sound
  tree : ScopeTree g.scopes

/-- A store with the registry and the frames of a ground, in which every value is sound. The stamp that comes next does not
mark anything. -/
structure Store.Sound (g : Ground) (s : Store) : Prop where
  ground : g.Sound
  registry : s.registry = g.registry
  size : g.scopes.length = s.frames.size
  stamps : ∀ stamp v, g.made stamp = some v → stamp < s.nextStamp
  values : ∀ frame name v, s.frames.value? frame name = some v → v.Sound g

/-- A fault whose payload is sound. -/
def Fault.Sound (g : Ground) (f : Fault) : Prop := ∀ v ∈ f.payload, v.Sound g

/-- A signal that carries no unsound value. -/
def Signal.Sound (g : Ground) : Signal → Prop
  | .fault f => f.Sound g
  | _ => True

variable {g h : Ground} {α β : Type}

/-- A registration adds a type that is numbered by its place, and only where there is room for it. -/
theorem Registry.Sound.register {r r' : Registry} (hr : r.Sound) {name : String} {fields : List String}
    {type : StructType} (hreg : r.register name fields = some (type, r')) : r'.Sound := by
  obtain ⟨htypes, rfl, hcapacity⟩ := Registry.register_types hreg
  have hroom : ¬ r.capacity ≤ r.size := by
    intro hfull
    rw [(Registry.register_eq_none_iff r name fields).2 hfull] at hreg
    cases hreg
  refine ⟨fun i type ht => ?_, fun _ => ?_⟩
  · rw [htypes, List.getElem?_append] at ht
    split at ht
    case isTrue => exact hr.ids i type ht
    case isFalse hi =>
      obtain ⟨h0, rfl⟩ : i - r.types.length = 0 ∧ _ = type := by simpa [List.getElem?_singleton] using ht
      show r.types.length = i
      omega
  · rw [hcapacity, Registry.size, htypes, List.length_append, List.length_singleton]
    rw [Registry.size] at hroom
    omega

theorem Fault.sound_of_none {f : Fault} (hf : f.payload = none) : f.Sound g := by
  simp [Fault.Sound, hf]

theorem Fault.sound_unbound (r : Registry) (name : String) (pos : Position) : (Fault.unbound r name pos).Sound g := by
  unfold Fault.unbound
  split
  · exact sound_of_none rfl
  · exact sound_of_none rfl

theorem Fault.Sound.mono (hg : g.Grows h) {f : Fault} (hf : f.Sound g) : f.Sound h := fun v hv => (hf v hv).mono hg

theorem Fault.Sound.toValue {f : Fault} (hf : f.Sound g) {stamp : Stamp} (hm : g.made stamp = some (f.toValue stamp)) :
    (f.toValue stamp).Sound g :=
  .error hm hf

/-- A value that a scope sees is bound in one of its frames. -/
theorem Frames.value?_of_lookup? {ν : Type} {f : Frames ν} {s : Scope} {name : String} {v : ν}
    (hv : f.lookup? s name = some v) : ∃ frame, f.value? frame name = some v := by
  obtain ⟨frame, -, hframe⟩ := List.exists_of_findSome?_eq_some hv
  exact ⟨frame, hframe⟩

theorem Frames.lookup_eq_ok {ν : Type} {f : Frames ν} {s : Scope} {name : String} {v : ν} :
    f.lookup s name = .ok v ↔ f.lookup? s name = some v := by
  unfold Frames.lookup
  cases f.lookup? s name with
  | none => simp
  | some w => simp

namespace Store.Sound

variable {s s' : Store}

/-- Only the frames, the registry and the next stamp count. -/
theorem congr (hs : s.Sound g) (hr : s'.registry = s.registry) (hf : s'.frames = s.frames)
    (hn : s'.nextStamp = s.nextStamp) : s'.Sound g :=
  ⟨hs.ground, hr.trans hs.registry, hf ▸ hs.size, hn ▸ hs.stamps, hf ▸ hs.values⟩

theorem lookup? (hs : s.Sound g) {scope : Scope} {name : String} {v : Value}
    (hv : s.frames.lookup? scope name = some v) : v.Sound g := by
  obtain ⟨frame, hframe⟩ := Frames.value?_of_lookup? hv
  exact hs.values frame name v hframe

/-- Binding a sound value leaves a sound store. -/
theorem put (hs : s.Sound g) (frame : Nat) (name : String) {v : Value} (hv : v.Sound g) :
    Store.Sound g { s with frames := s.frames.put frame name v } := by
  refine ⟨hs.ground, hs.registry, hs.size.trans (Frames.size_put ..).symm, hs.stamps, fun k n w hw => ?_⟩
  rw [Frames.value?_put] at hw
  split at hw
  · obtain rfl := Option.some.inj hw
    exact hv
  · exact hs.values k n w hw

/-- A new frame belongs to a new scope of the tree. -/
theorem grow (hs : s.Sound g) {scope : Scope} (hscope : scope ∈ g.scopes) :
    Store.Sound { g with scopes := g.scopes ++ [s.frames.inside scope] } { s with frames := s.frames.grow } := by
  have hgrows : g.Grows { g with scopes := g.scopes ++ [s.frames.inside scope] } :=
    ⟨List.prefix_refl _, rfl, List.prefix_append _ _, fun _ _ => id⟩
  refine ⟨⟨hs.ground.registry, ?_⟩, hs.registry, ?_, hs.stamps, fun k n w hw => ?_⟩
  · show ScopeTree (g.scopes ++ [⟨s.frames.size, scope.chain⟩])
    rw [← hs.size]
    exact .inside hs.ground.tree hscope
  · show (g.scopes ++ [_]).length = (s.frames.table.push []).size
    rw [List.length_append, hs.size, Array.size_push]
    rfl
  · exact (hs.values k n w (Frames.value?_grow s.frames k n ▸ hw)).mono hgrows

/-- A registration leaves a store that is sound on more types. -/
theorem register (hs : s.Sound g) {name : String} {fields : List String} {type : StructType} {r : Registry}
    (hr : s.registry.register name fields = some (type, r)) :
    g.Grows { g with registry := r } ∧ Store.Sound { g with registry := r } { s with registry := r } := by
  rw [hs.registry] at hr
  obtain ⟨htypes, -, hcapacity⟩ := Registry.register_types hr
  have hgrows : g.Grows { g with registry := r } :=
    ⟨htypes ▸ List.prefix_append _ _, hcapacity, List.prefix_refl _, fun _ _ => id⟩
  refine ⟨hgrows, ⟨hs.ground.registry.register hr, hs.ground.tree⟩, rfl, hs.size, hs.stamps, fun k n w hw => ?_⟩
  exact (hs.values k n w hw).mono hgrows

/-- The ground on which the next stamp of a store marks a value. -/
theorem mark (hs : s.Sound g) (v : Value) :
    let h : Ground := { g with made := Function.update g.made s.nextStamp (some v) }
    g.Grows h ∧ h.made s.nextStamp = some v ∧ Store.Sound h { s with nextStamp := s.nextStamp + 1 } := by
  have hgrows : g.Grows { g with made := Function.update g.made s.nextStamp (some v) } := by
    refine ⟨List.prefix_refl _, rfl, List.prefix_refl _, fun stamp w hw => ?_⟩
    exact (Function.update_of_ne (Nat.ne_of_lt (hs.stamps stamp w hw)) ..).trans hw
  refine ⟨hgrows, Function.update_self .., ⟨hs.ground.registry, hs.ground.tree⟩, hs.registry, hs.size, ?_, ?_⟩
  · intro stamp w hw
    by_cases hnew : stamp = s.nextStamp
    · exact hnew ▸ Nat.lt_succ_self _
    · exact Nat.lt_succ_of_lt (hs.stamps stamp w ((Function.update_of_ne hnew ..).symm.trans hw))
  · exact fun k n w hw => (hs.values k n w hw).mono hgrows

end Store.Sound

/-! ## Ends and actions -/

/-- An end on a sound store, with a result as it should be or a sound signal. -/
inductive Ends (g : Ground) (P : Ground → α → Prop) : EStateM.Result Signal Store α → Prop
  | ok {a : α} {s : Store} : s.Sound g → P g a → Ends g P (.ok a s)
  | error {e : Signal} {s : Store} : s.Sound g → e.Sound g → Ends g P (.error e s)

/-- An action that, started in a sound store, ends well on a ground that may have grown. -/
def Keeps (g : Ground) (P : Ground → α → Prop) (act : Eval α) : Prop :=
  ∀ s, s.Sound g → ∃ h, g.Grows h ∧ Ends h P (act s)

/-- A result that is as it should be, or a fault with a sound payload. -/
def Gives (g : Ground) (P : Ground → α → Prop) : Except Fault α → Prop
  | .ok a => P g a
  | .error f => f.Sound g

/-- Nothing is asked of a result. -/
abbrev Anything : Ground → α → Prop := fun _ _ => True

namespace Keeps

variable {P : Ground → α → Prop} {Q : Ground → β → Prop}

/-- An action that leaves frames, registry and stamps as they are. -/
theorem of_same {act : Eval α} {s s' : Store} {a : α} (hs : s.Sound g) (hact : act s = .ok a s')
    (hr : s'.registry = s.registry) (hf : s'.frames = s.frames) (hn : s'.nextStamp = s.nextStamp) (ha : P g a) :
    ∃ h, g.Grows h ∧ Ends h P (act s) :=
  ⟨g, .refl g, hact ▸ .ok (hs.congr hr hf hn) ha⟩

theorem pure {a : α} (ha : P g a) : Keeps g P (pure a) := fun _ hs => ⟨g, .refl g, .ok hs ha⟩

theorem throw {e : Signal} (he : e.Sound g) : Keeps g P (throw e) := fun _ hs => ⟨g, .refl g, .error hs he⟩

theorem faultSound {f : Fault} (hf : f.Sound g) : Keeps g P (Eval.fault f) := throw hf

theorem fault {f : Fault} (hf : f.payload = none) : Keeps g P (Eval.fault f) :=
  faultSound (Fault.sound_of_none hf)

/-- Two actions in turn; the second starts on the ground that the first has left. -/
theorem bind {act : Eval α} {f : α → Eval β} (hact : Keeps g P act)
    (hf : ∀ h a, g.Grows h → P h a → Keeps h Q (f a)) : Keeps g Q (act >>= f) := by
  intro s hs
  obtain ⟨h, hgrows, hend⟩ := hact s hs
  show ∃ h, g.Grows h ∧ Ends h Q (EStateM.bind act f s)
  unfold EStateM.bind
  generalize act s = x at *
  cases hend with
  | ok hs' ha =>
    obtain ⟨k, hgrows', hend'⟩ := hf h _ hgrows ha _ hs'
    exact ⟨k, hgrows.trans hgrows', hend'⟩
  | error hs' he => exact ⟨h, hgrows, .error hs' he⟩

theorem ofExcept {x : Except Fault α} (hx : Gives g P x) : Keeps g P (Eval.ofExcept x) := by
  cases x with
  | ok a => exact pure hx
  | error f => exact faultSound hx

theorem answer (q : Question) (o : Option α) : Keeps g Anything (Eval.answer q o) := by
  cases o with
  | some a => exact pure trivial
  | none => exact throw trivial

theorem ite {p : Prop} [Decidable p] {act act' : Eval α} (h : Keeps g P act) (h' : Keeps g P act') :
    Keeps g P (if p then act else act') := by
  split
  · exact h
  · exact h'

theorem get : Keeps g (fun g s => s.Sound g) (get : Eval Store) := fun _ hs => ⟨g, .refl g, .ok hs hs⟩

/-! ## Scopes and types -/

/-- A fresh stamp marks whatever is made under it. -/
theorem markedStamp (f : Stamp → Value) : Keeps g (fun g stamp => g.made stamp = some (f stamp)) Eval.freshStamp := by
  intro s hs
  obtain ⟨hgrows, hmade, hs'⟩ := hs.mark (f s.nextStamp)
  exact ⟨_, hgrows, .ok hs' hmade⟩

theorem freshStamp : Keeps g Anything Eval.freshStamp := by
  intro s hs
  refine ⟨g, .refl g, .ok ⟨hs.ground, hs.registry, hs.size, fun stamp v hv => ?_, hs.values⟩ trivial⟩
  exact Nat.lt_succ_of_lt (hs.stamps stamp v hv)

/-- What is made under a fresh stamp is sound if it is sound as what the stamp marks. -/
theorem making {run : Stamp → Except Fault Value} (hrun : ∀ stamp, Gives g (Value.SoundAs stamp) (run stamp)) :
    Keeps g Value.Sound (Eval.freshStamp >>= fun stamp => Eval.ofExcept (run stamp)) := by
  refine bind (markedStamp fun stamp => (run stamp).toOption.getD .nil) fun h stamp hg hm => ofExcept ?_
  have hresult := hrun stamp
  cases hx : run stamp with
  | ok v =>
    rw [hx] at hresult hm
    exact hresult h hg hm
  | error f =>
    rw [hx] at hresult
    exact Fault.Sound.mono hg hresult

theorem lookup? (scope : Scope) (name : String) : Keeps g (fun g o => ∀ v ∈ o, v.Sound g) (Eval.lookup? scope name) :=
  fun _ hs => ⟨g, .refl g, .ok hs fun _ hv => hs.lookup? hv⟩

theorem lookup (scope : Scope) (name : String) (pos : Position) : Keeps g Value.Sound (Eval.lookup scope name pos) := by
  refine bind get fun h s _ hs => ?_
  split
  next v hv => exact pure (hs.lookup? hv)
  next => exact faultSound (Fault.sound_unbound _ _ _)

theorem define (scope : Scope) (name : String) {v : Value} (hv : v.Sound g) :
    Keeps g Anything (Eval.define scope name v) := by
  unfold Eval.define
  refine ite (fault rfl) fun s hs => ?_
  exact ⟨g, .refl g, .ok (hs.put scope.own name hv) trivial⟩

theorem assign (scope : Scope) (name : String) {v : Value} (hv : v.Sound g) :
    Keeps g Anything (Eval.assign scope name v) := by
  refine bind (P := Anything) (fun _ hs => of_same hs rfl rfl rfl rfl trivial) fun h owner hgrows _ => ?_
  split
  · exact fun s hs => ⟨h, .refl h, .ok (hs.put _ name (hv.mono hgrows)) trivial⟩
  · exact fault rfl

/-- A scope that is opened inside a scope of the ground is a scope of the ground it leaves. -/
theorem childScope {scope : Scope} (hscope : scope ∈ g.scopes) :
    Keeps g (fun g inner => inner ∈ g.scopes) (Eval.childScope scope) := by
  intro s hs
  refine ⟨{ g with scopes := g.scopes ++ [s.frames.inside scope] }, ?_, .ok (hs.grow hscope) (by simp)⟩
  exact ⟨List.prefix_refl _, rfl, List.prefix_append _ _, fun _ _ => id⟩

theorem registerStruct (name : String) (fields : List String) :
    Keeps g (fun g type => type ∈ g.registry.types) (Recursion.registerStruct name fields) := by
  intro s hs
  unfold Recursion.registerStruct
  split
  next type r hr =>
    obtain ⟨hgrows, hs'⟩ := hs.register hr
    refine ⟨{ g with registry := r }, hgrows, .ok hs' ?_⟩
    obtain ⟨htypes, -, -⟩ := Registry.register_types hr
    simp [htypes]
  next => exact ⟨g, .refl g, .error hs (Fault.sound_of_none rfl)⟩

/-! ## Context, trace, input and output -/

theorem withCaller (scope : Scope) {act : Eval α} (hact : Keeps g P act) : Keeps g P (Eval.withCaller scope act) := by
  intro s hs
  obtain ⟨h, hgrows, hend⟩ := hact { s with caller := scope } (hs.congr rfl rfl rfl)
  refine ⟨h, hgrows, ?_⟩
  simp only [Eval.withCaller]
  generalize act { s with caller := scope } = x at *
  cases hend with
  | ok hs' ha => exact .ok (hs'.congr rfl rfl rfl) ha
  | error hs' he => exact .error (hs'.congr rfl rfl rfl) he

theorem withImport (path : String) {act : Eval α} (hact : Keeps g P act) : Keeps g P (Eval.withImport path act) := by
  intro s hs
  obtain ⟨h, hgrows, hend⟩ := hact { s with directory := Path.parent path, importing := path :: s.importing }
    (hs.congr rfl rfl rfl)
  refine ⟨h, hgrows, ?_⟩
  simp only [Eval.withImport]
  generalize act { s with directory := Path.parent path, importing := path :: s.importing } = x at *
  cases hend with
  | ok hs' ha => exact .ok (hs'.congr rfl rfl rfl) ha
  | error hs' he => exact .error (hs'.congr rfl rfl rfl) he

/-- A handler runs on the ground that the fault has left, and the fault is sound there. -/
theorem catching {R : Ground → Value → Prop} {body : Eval Value} {handle : Fault → Eval Value} (hbody : Keeps g R body)
    (hhandle : ∀ h f, g.Grows h → f.Sound h → Keeps h R (handle f)) : Keeps g R (Recursion.catching body handle) := by
  intro s hs
  obtain ⟨h, hgrows, hend⟩ := hbody s hs
  unfold Recursion.catching
  generalize body s = x at *
  cases hend with
  | ok hs' ha => exact ⟨h, hgrows, .ok hs' ha⟩
  | @error e s' hs' he =>
    cases e with
    | fault f =>
      obtain ⟨k, hgrows', hend'⟩ := hhandle h f hgrows he s' hs'
      exact ⟨k, hgrows.trans hgrows', hend'⟩
    | _ => exact ⟨h, hgrows, .error hs' he⟩

theorem trace (message : Unit → String) : Keeps g Anything (Eval.trace message) := by
  intro s hs
  rw [Eval.trace_apply]
  refine ⟨g, .refl g, .ok ?_ trivial⟩
  split
  · exact hs.congr rfl rfl rfl
  · exact hs

theorem emit (sink : Sink) (e : Emission) : Keeps g Anything (Eval.emit sink e) := by
  unfold Eval.emit
  split
  · exact fault rfl
  · refine bind (P := Anything) (fun s hs => of_same hs rfl rfl rfl rfl trivial) fun h _ _ _ => ?_
    split
    · exact fault rfl
    · exact pure trivial

theorem write (text : String) : Keeps g Anything (Eval.write text) := bind get fun _ _ _ _ => emit _ _

theorem writeError (text : String) : Keeps g Anything (Eval.writeError text) := bind get fun _ _ _ _ => emit _ _

theorem readLine : Keeps g Anything Eval.readLine := by
  intro s hs
  refine ⟨g, .refl g, ?_⟩
  simp only [Eval.readLine]
  split
  · exact .ok (hs.congr rfl rfl rfl) trivial
  · exact .ok (hs.congr rfl rfl rfl) trivial
  · exact .error (hs.congr rfl rfl rfl) (Fault.sound_of_none rfl)
  · exact .error hs trivial

theorem readFile (path : String) : Keeps g Anything (Eval.readFile path) := by
  refine bind get fun h s _ _ => bind (answer _ _) fun k text _ _ => ?_
  split
  · exact pure trivial
  · exact fault rfl

theorem currentTime : Keeps g Anything Eval.currentTime := by
  intro s hs
  rw [Eval.currentTime_apply]
  refine ⟨g, .refl g, ?_⟩
  split
  · exact .ok (hs.congr rfl rfl rfl) trivial
  · exact .error hs trivial

theorem chance : Keeps g Anything Eval.chance := fun _ hs => of_same hs rfl rfl rfl rfl trivial

end Keeps

end Lisplet
