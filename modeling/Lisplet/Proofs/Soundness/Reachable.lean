import Mathlib.Logic.Relation
import Lisplet.Proofs.Soundness.Evaluating
/-!
# Reachable states are well formed

An interpreter in use is its store together with the values it has handed out. What can be done with it (`Run.Step`) is
to evaluate a term or a text, to apply a procedure, to import a file and to bind a global name; the values and scopes that
go in are ones it holds, so nothing comes from outside but code and names. An evaluation may end in any way.

Every state that is reached from a fresh interpreter is well formed (`wellFormed_of_steps`): the invariant is `Run.Sound`,
which one step keeps on a ground that may grow (`Run.Sound.step`).
-/
namespace Lisplet

/-- An interpreter in use: its store and the values it has handed out. -/
structure Run where
  store : Store
  given : List Value

namespace Run

/-- An interpreter that has not been used. -/
def fresh (world : World) (options : Options) : Run := ⟨.initial world options, []⟩

/-- A value that is held anywhere: inside one that a frame binds or inside one that was handed out. -/
def Holds (r : Run) (w : Value) : Prop :=
  (∃ frame name v, r.store.frames.value? frame name = some v ∧ w.Within v) ∨ ∃ v ∈ r.given, w.Within v

/-- A scope that is held: the global one, or that of a closure or a template macro. -/
inductive HoldsScope (r : Run) : Scope → Prop
  | global : HoldsScope r .global
  | closure {stamp : Stamp} {c : Closure Value} : r.Holds (.closure stamp c) → HoldsScope r c.scope
  | template {stamp : Stamp} {name : String} {params : List String} {body : Code} {scope : Scope} :
      r.Holds (.expander stamp name (.template params body scope)) → HoldsScope r scope

/-- The state when an evaluation has ended. Its value is handed out, or the payload of its fault. -/
def after (r : Run) : EStateM.Result Signal Store Value → Run
  | .ok v s => ⟨s, v :: r.given⟩
  | .error (.fault f) s => ⟨s, f.payload.toList ++ r.given⟩
  | .error _ s => ⟨s, r.given⟩

/-- What can be done with an interpreter, for any number `n` of steps that an evaluation is allowed. -/
inductive Step : Run → Run → Prop
  | evaluate {r : Run} (n : Nat) {t : Code} {scope : Scope} : (∀ v ∈ t.values, r.Holds v) → r.HoldsScope scope →
      Step r (r.after (Lisplet.evaluate n t scope r.store))
  | apply {r : Run} (n : Nat) {f : Value} {args : List Value} : r.Holds f → (∀ v ∈ args, r.Holds v) →
      Step r (r.after (Lisplet.apply n f args r.store))
  | source {r : Run} (n : Nat) (text : String) {scope : Scope} : r.HoldsScope scope →
      Step r (r.after (Recursion.evaluateSource ⟨Lisplet.evaluate n, Lisplet.apply n⟩ scope text r.store))
  | load {r : Run} (n : Nat) (file : String) :
      Step r (r.after ((Recursion.importFile ⟨Lisplet.evaluate n, Lisplet.apply n⟩ file >>= fun _ => pure .nil) r.store))
  | bind {r : Run} (name : String) {v : Value} : r.Holds v →
      Step r { r with store := { r.store with frames := r.store.frames.bind .global name v } }

end Run

/-- The scope that each frame was opened for. A scope is inside one of an earlier frame, and its chain ends at the global
frame. -/
structure ScopeChains (scopes : List Scope) : Prop where
  own : ∀ (k : Nat) (scope : Scope), scopes[k]? = some scope → scope.own = k
  parent : ∀ scope ∈ scopes, scope = .global ∨ ∃ outer ∈ scopes, outer.own < scope.own ∧ scope.outer = outer.chain
  ends : ∀ scope ∈ scopes, scope.chain.getLast? = some Scope.global.own

/-- A state in which types, structs, closures, errors and scopes are as they should be, wherever they are held. -/
structure Run.WellFormed (r : Run) : Prop where
  ids : ∀ (i : Nat) (type : StructType), r.store.registry.types[i]? = some type → type.id = i
  bounded : 0 ≤ r.store.registry.capacity → (r.store.registry.size : Int) ≤ r.store.registry.capacity
  structs : ∀ stamp type fields, r.Holds (.struct stamp type fields) →
    fields.length = type.fields.length ∧ r.store.registry.types[type.id]? = some type
  closures : ∀ stamp c, r.Holds (.closure stamp c) → c.body ≠ [] ∧ ∀ p ∈ c.params, isReserved p = false
  errors : ∀ stamp code description payload, r.Holds (.error stamp code description payload) →
    1 ≤ code.number ∧ code.number ≤ 32
  scopes : ∃ scopes : List Scope, scopes.length = r.store.frames.size ∧ ScopeChains scopes ∧
    ∀ scope, r.HoldsScope scope → scope ∈ scopes

/-! ## Trees of scopes -/

namespace ScopeTree

variable {scopes : List Scope}

/-- The scopes of a tree stand at the numbers of their own frames. -/
theorem own (h : ScopeTree scopes) : ∀ (k : Nat) (scope : Scope), scopes[k]? = some scope → scope.own = k := by
  induction h with
  | global =>
    intro k scope hk
    obtain ⟨rfl, rfl⟩ : k = 0 ∧ Scope.global = scope := by simpa [List.getElem?_singleton] using hk
    rfl
  | @inside scopes outer _ _ ih =>
    intro k scope hk
    rw [List.getElem?_append] at hk
    split at hk
    · exact ih k scope hk
    · obtain ⟨hlast, rfl⟩ : k - scopes.length = 0 ∧ _ = scope := by simpa [List.getElem?_singleton] using hk
      show scopes.length = k
      omega

theorem own_lt (h : ScopeTree scopes) {scope : Scope} (hs : scope ∈ scopes) : scope.own < scopes.length := by
  obtain ⟨k, hk⟩ := List.mem_iff_getElem?.1 hs
  rw [h.own k scope hk]
  exact (List.getElem?_eq_some_iff.1 hk).1

theorem parent (h : ScopeTree scopes) :
    ∀ scope ∈ scopes, scope = .global ∨ ∃ outer ∈ scopes, outer.own < scope.own ∧ scope.outer = outer.chain := by
  induction h with
  | global => exact fun scope hs => .inl (List.mem_singleton.1 hs)
  | @inside scopes outer htree hmem ih =>
    intro scope hs
    rcases List.mem_append.1 hs with hs | hs
    · rcases ih scope hs with hglobal | ⟨o, ho, hlt, hchain⟩
      · exact .inl hglobal
      · exact .inr ⟨o, List.mem_append_left _ ho, hlt, hchain⟩
    · obtain rfl := List.mem_singleton.1 hs
      exact .inr ⟨outer, List.mem_append_left _ hmem, htree.own_lt hmem, rfl⟩

theorem ends (h : ScopeTree scopes) : ∀ scope ∈ scopes, scope.chain.getLast? = some Scope.global.own := by
  induction h with
  | global =>
    intro scope hs
    obtain rfl := List.mem_singleton.1 hs
    rfl
  | @inside scopes outer _ hmem ih =>
    intro scope hs
    rcases List.mem_append.1 hs with hs | hs
    · exact ih scope hs
    · obtain rfl := List.mem_singleton.1 hs
      -- A new frame in front leaves the end of the chain where it is.
      exact ih outer hmem

theorem chains (h : ScopeTree scopes) : ScopeChains scopes := ⟨h.own, h.parent, h.ends⟩

end ScopeTree

/-! ## The invariant -/

namespace Run

/-- A run with a sound store that has handed out sound values. -/
structure Sound (g : Ground) (r : Run) : Prop where
  store : r.store.Sound g
  given : Value.SoundAll g r.given

variable {g : Ground} {r r' : Run}

theorem Sound.holds (hr : r.Sound g) {v : Value} (hv : r.Holds v) : v.Sound g := by
  rcases hv with ⟨frame, name, v', hframe, hw⟩ | ⟨v', hgiven, hw⟩
  · exact (hr.store.values frame name v' hframe).within hw
  · exact (hr.given v' hgiven).within hw

theorem Sound.holdsScope (hr : r.Sound g) {scope : Scope} (hs : r.HoldsScope scope) : scope ∈ g.scopes := by
  cases hs with
  | global => exact hr.store.ground.tree.global_mem
  | closure hc =>
    cases hr.holds hc with
    | closure hscope _ _ _ => exact hscope
  | template ht =>
    cases hr.holds ht with
    | template hscope _ => exact hscope

/-- What an evaluation hands out is as sound as the store it leaves. -/
theorem Sound.after (hr : r.Sound g) {act : Eval Value} (hact : Keeps g Value.Sound act) :
    ∃ h, g.Grows h ∧ (r.after (act r.store)).Sound h := by
  obtain ⟨h, hgrows, hend⟩ := hact r.store hr.store
  have hgiven := Value.soundAll_mono hgrows hr.given
  refine ⟨h, hgrows, ?_⟩
  generalize act r.store = x at *
  cases hend with
  | ok hs hv => exact ⟨hs, List.forall_mem_cons.2 ⟨hv, hgiven⟩⟩
  | @error e s hs he =>
    cases e with
    | fault f =>
      refine ⟨hs, List.forall_mem_append.2 ⟨fun v hv => he v ?_, hgiven⟩⟩
      simpa using hv
    | _ => exact ⟨hs, hgiven⟩

/-- One step keeps a run sound. -/
theorem Sound.step (hr : r.Sound g) (hstep : Step r r') : ∃ h, g.Grows h ∧ r'.Sound h := by
  cases hstep with
  | evaluate n hvalues hscope =>
    exact hr.after ((sound_evaluate n).evaluate (fun v hv => hr.holds (hvalues v hv)) (hr.holdsScope hscope))
  | apply n hf hargs => exact hr.after ((sound_evaluate n).apply (hr.holds hf) fun v hv => hr.holds (hargs v hv))
  | source n text hscope => exact hr.after (keeps_evaluateSource (sound_evaluate n) text (hr.holdsScope hscope))
  | load n file => exact hr.after (.bind (keeps_importFile (sound_evaluate n) file) fun _ _ _ _ => .pure .nil)
  | bind name hv => exact ⟨g, .refl g, hr.store.put _ name (hr.holds hv), hr.given⟩

/-- Any number of steps keeps a run sound. -/
theorem Sound.steps (hr : r.Sound g) (hsteps : Relation.ReflTransGen Step r r') : ∃ h, g.Grows h ∧ r'.Sound h := by
  induction hsteps with
  | refl => exact ⟨g, .refl g, hr⟩
  | tail _ hstep ih =>
    obtain ⟨h, hgh, hmid⟩ := ih
    obtain ⟨k, hhk, hr'⟩ := hmid.step hstep
    exact ⟨k, hgh.trans hhk, hr'⟩

/-! ## A fresh interpreter -/

/-- Whether an operation makes structs. -/
def constructs : Operation → Bool
  | .structs (.construct _) => true
  | _ => false

/-- No struct can be made before a struct type is defined. -/
theorem constructs_of_mem_table : ∀ b ∈ Builtin.table, constructs b.operation = false := by decide

theorem sound_initialBindings : ∀ p ∈ initialBindings, p.2.Sound g := by
  intro p hp
  rcases List.mem_append.1 hp with hp | hp
  · obtain ⟨b, hb, rfl⟩ := List.mem_map.1 hp
    refine .builtin fun type hop => ?_
    have hnone := constructs_of_mem_table b hb
    rw [hop] at hnone
    cases hnone
  · rcases List.mem_pair.1 hp with rfl | rfl
    · exact .number _ _
    · exact .string _ _

/-- The ground of a fresh interpreter: no type, the global frame alone, and nothing that was made. -/
def ground (options : Options) : Ground := ⟨.empty options.capacity, [.global], fun _ => none⟩

theorem sound_fresh (world : World) (options : Options) : (fresh world options).Sound (ground options) := by
  refine ⟨⟨⟨⟨?ids, ?bounded⟩, .global⟩, rfl, rfl, ?stamps, ?values⟩, fun v hv => absurd hv List.not_mem_nil⟩
  case ids =>
    intro i type htype
    simp [ground, Registry.empty] at htype
  case bounded => exact fun hcapacity => hcapacity
  case stamps =>
    intro stamp v hv
    cases hv
  case values =>
    intro frame name v hv
    cases frame with
    | zero =>
      obtain ⟨before, behind, hsplit, -⟩ := List.lookup_eq_some_iff.1 hv
      have hinitial : initialBindings = before ++ (name, v) :: behind := hsplit
      exact sound_initialBindings (name, v) (hinitial ▸ List.mem_append_right _ List.mem_cons_self)
    | succ frame => cases hv

/-! ## Well-formedness -/

theorem Sound.wellFormed (hr : r.Sound g) : r.WellFormed where
  ids := hr.store.registry ▸ hr.store.ground.registry.ids
  bounded := hr.store.registry ▸ hr.store.ground.registry.bounded
  structs stamp type fields hv := by
    cases hr.holds hv with
    | struct htype hlength _ _ =>
      obtain ⟨i, hi⟩ := List.mem_iff_getElem?.1 htype
      rw [hr.store.registry, hr.store.ground.registry.ids i type hi]
      exact ⟨hlength, hi⟩
  closures stamp c hv := by
    cases hr.holds hv with
    | closure _ hne hparams _ => exact ⟨hne, hparams⟩
  errors stamp code description payload _ := code.number_le
  scopes := ⟨g.scopes, hr.store.size, hr.store.ground.tree.chains, fun _ => hr.holdsScope⟩

/-- Whatever is done with a fresh interpreter, the state it comes to is well formed. The types that were registered on the
way are still there, as they were, and the capacity is the one that was asked for. -/
theorem wellFormed_of_steps (world : World) (options : Options) {r r' : Run}
    (hr : Relation.ReflTransGen Step (fresh world options) r) (hr' : Relation.ReflTransGen Step r r') :
    r'.WellFormed ∧ r.store.registry.types <+: r'.store.registry.types ∧
      r'.store.registry.capacity = options.capacity := by
  obtain ⟨g, hg, hsound⟩ := (sound_fresh world options).steps hr
  obtain ⟨h, hh, hsound'⟩ := hsound.steps hr'
  refine ⟨hsound'.wellFormed, ?_, ?_⟩
  · rw [hsound.store.registry, hsound'.store.registry]
    exact hh.types
  · rw [hsound'.store.registry]
    exact (hg.trans hh).capacity

/-- The term `(define-struct point (x y))`. -/
def definingPoint : Code :=
  let word (name : String) : Code := .symbol .start name
  .list .start [word "define-struct", word "point", .list .start [word "x", word "y"]]

/-- The term `(make-point 1 2)`. -/
def makingPoint : Code := .list .start [.symbol .start "make-point", .number .start 1, .number .start 2]

/-- A fresh interpreter after a struct type has been defined. -/
def pointDefined : Run :=
  let r := fresh (World.closed "/" [] []) {}
  r.after (Lisplet.evaluate 2 definingPoint .global r.store)

/-- The interpreter after a struct of this type has been made as well. -/
def pointMade : Run := pointDefined.after (Lisplet.evaluate 2 makingPoint .global pointDefined.store)

/-- A point that was made is held, and the state that holds it is well formed. -/
theorem wellFormed_of_steps_pointMade :
    pointMade.Holds (.struct 0 ⟨0, "point", ["x", "y"]⟩ [.number .made 1, .number .made 2]) ∧ pointMade.WellFormed ∧
      [⟨0, "point", ["x", "y"]⟩] <+: pointMade.store.registry.types ∧ pointMade.store.registry.capacity = 1024 := by
  have hdefined : Step (fresh (World.closed "/" [] []) {}) pointDefined :=
    .evaluate (t := definingPoint) 2 (fun v hv => absurd hv List.not_mem_nil) .global
  have hmade : Step pointDefined pointMade :=
    .evaluate (t := makingPoint) 2 (fun v hv => absurd hv List.not_mem_nil) .global
  exact ⟨.inr ⟨_, List.mem_cons_self, .here⟩, wellFormed_of_steps _ _ (.single hdefined) (.single hmade)⟩

end Run

end Lisplet
