import Lisplet.Proofs.Evaluation.Frames
import Lisplet.Proofs.Soundness.Reachable
/-!
# Lexical scoping

In a tree of scopes a name belongs, seen from a scope, to the nearest frame on the scope's chain that binds it
(`Frames.Owner`), and what the name means is its value there (`Frames.lookup?_eq_some_iff`). A change in one frame is seen
by the scopes whose chains come to this frame before another one that binds the name, and by no other scope
(`Frames.lookup?_put_of_exposes`, `Frames.lookup?_put_of_not_exposes`).

Main statement: whatever was done in a tree of scopes, a definition, an assignment and a refusal change what names mean
exactly as lexical scoping says (`Scoping.lexical_of_reached`).
-/
namespace Lisplet

namespace Frames

variable {ν : Type} {f : Frames ν} {s : Scope} {name : String} {frame : Nat}

/-! ## The frame that a name belongs to -/

/-- A frame of a scope that no nearer frame of the scope hides from a name. -/
def Exposes (f : Frames ν) (s : Scope) (name : String) (frame : Nat) : Prop :=
  ∃ nearer further, s.chain = nearer ++ frame :: further ∧ ∀ k ∈ nearer, f.value? k name = none

/-- The nearest frame of a scope that binds a name. -/
def Owner (f : Frames ν) (s : Scope) (name : String) (frame : Nat) : Prop :=
  f.Exposes s name frame ∧ (f.value? frame name).isSome

theorem owner?_eq_some_iff : f.owner? s name = some frame ↔ f.Owner s name frame := by
  rw [owner?, List.find?_eq_some_iff_append]
  constructor
  · rintro ⟨hbound, nearer, further, hchain, hnearer⟩
    exact ⟨⟨nearer, further, hchain, fun k hk => by simpa using hnearer k hk⟩, hbound⟩
  · rintro ⟨⟨nearer, further, hchain, hnearer⟩, hbound⟩
    exact ⟨hbound, nearer, further, hchain, fun k hk => by simp [hnearer k hk]⟩

theorem owner?_eq_none_iff : f.owner? s name = none ↔ ∀ frame, ¬ f.Owner s name frame := by
  simp only [← owner?_eq_some_iff, Option.eq_none_iff_forall_ne_some, ne_eq]

/-- A name means its value in the frame that it belongs to. -/
theorem lookup?_of_owner (h : f.Owner s name frame) : f.lookup? s name = f.value? frame name := by
  obtain ⟨⟨nearer, further, hchain, hnearer⟩, hbound⟩ := h
  obtain ⟨v, hv⟩ := Option.isSome_iff_exists.1 hbound
  have hnone : nearer.findSome? (fun k => f.value? k name) = none := List.findSome?_eq_none_iff.2 hnearer
  rw [lookup?, hchain, List.findSome?_append, hnone, Option.none_or, List.findSome?_cons, hv]

theorem lookup?_eq_some_iff {v : ν} : f.lookup? s name = some v ↔ ∃ k, f.Owner s name k ∧ f.value? k name = some v := by
  constructor
  · intro h
    obtain ⟨nearer, k, further, hchain, hv, hnearer⟩ := List.findSome?_eq_some_iff.1 h
    exact ⟨k, ⟨⟨nearer, further, hchain, hnearer⟩, by rw [hv]; rfl⟩, hv⟩
  · rintro ⟨k, howner, hv⟩
    rw [lookup?_of_owner howner, hv]

theorem lookup?_eq_none_iff : f.lookup? s name = none ↔ ∀ k, ¬ f.Owner s name k := by
  constructor
  · intro h k howner
    have hbound := howner.2
    rw [← lookup?_of_owner howner, h] at hbound
    cases hbound
  · intro h
    cases hv : f.lookup? s name with
    | none => rfl
    | some v =>
      obtain ⟨k, howner, -⟩ := lookup?_eq_some_iff.1 hv
      exact absurd howner (h k)

/-! ## Changing one frame -/

theorem lookup?_put_of_ne {n : String} (hn : n ≠ name) (v : ν) : (f.put frame name v).lookup? s n = f.lookup? s n := by
  simp only [lookup?, value?_put, hn, false_and, and_false, if_false]

/-- A frame with one more name does not hide another one from the scope that it is put in front of. -/
theorem lookup?_inside (f : Frames ν) (s : Scope) {n : String} (hn : n ≠ name) (v : ν) :
    (f.grow.bind (f.inside s) name v).lookup? (f.inside s) n = f.lookup? s n := by
  have hfresh : f.value? f.size n = none := by
    rw [value?, bindings, size, Array.getElem?_eq_none (Nat.le_refl _)]
    rfl
  have hgrow (k : Nat) : f.grow.value? k n = f.value? k n := value?_child f s k n
  rw [bind, lookup?_put_of_ne hn, lookup?, lookup?]
  simp only [hgrow]
  rw [inside, Scope.chain, List.findSome?_cons, hfresh]

/-- A value that is put into a frame is what the name means in the scopes that the frame is exposed to. -/
theorem lookup?_put_of_exposes (hf : frame < f.size) (v : ν) (h : f.Exposes s name frame) :
    (f.put frame name v).lookup? s name = some v := by
  obtain ⟨nearer, further, hchain, hnearer⟩ := h
  have hv : (f.put frame name v).value? frame name = some v := by simp [value?_put, hf]
  rw [lookup?, hchain, List.findSome?_append, List.findSome?_cons, hv]
  cases hfirst : nearer.findSome? fun k => (f.put frame name v).value? k name with
  | none => rfl
  | some w =>
    -- Of the nearer frames only the changed one itself can bind the name.
    obtain ⟨k, hk, hw⟩ := List.exists_of_findSome?_eq_some hfirst
    rw [value?_put, hnearer k hk] at hw
    split at hw
    · rw [hw, Option.some_or]
    · cases hw

theorem findSome?_put_of_not_mem (v : ν) {ks : List Nat} (h : frame ∉ ks) :
    (ks.findSome? fun k => (f.put frame name v).value? k name) = ks.findSome? fun k => f.value? k name := by
  induction ks with
  | nil => rfl
  | cons k ks ih =>
    obtain ⟨hk, hks⟩ : frame ≠ k ∧ frame ∉ ks := by simpa using h
    have hvalue : (f.put frame name v).value? k name = f.value? k name := by simp [value?_put, Ne.symm hk]
    rw [List.findSome?_cons, List.findSome?_cons, hvalue, ih hks]

/-- All other scopes see what they saw. -/
theorem lookup?_put_of_not_exposes (v : ν) (h : ¬ f.Exposes s name frame) :
    (f.put frame name v).lookup? s name = f.lookup? s name := by
  by_cases hmem : frame ∈ s.chain
  · obtain ⟨nearer, further, hchain, hfirst⟩ := List.eq_append_cons_of_mem hmem
    obtain ⟨v', hv'⟩ : ∃ v', (nearer.findSome? fun k => f.value? k name) = some v' := by
      rw [← Option.ne_none_iff_exists', Ne, List.findSome?_eq_none_iff]
      exact fun hnearer => h ⟨nearer, further, hchain, hnearer⟩
    simp only [lookup?, hchain, List.findSome?_append, findSome?_put_of_not_mem v hfirst, hv', Option.some_or]
  · exact findSome?_put_of_not_mem v hmem

theorem assign_of_owner (h : f.Owner s name frame) (v : ν) : f.assign s name v = .ok (f.put frame name v) := by
  rw [assign, owner?_eq_some_iff.2 h]

theorem assign_of_no_owner (h : ∀ k, ¬ f.Owner s name k) (v : ν) : f.assign s name v = .error (.undefined name) := by
  rw [assign, owner?_eq_none_iff.2 h]

end Frames

/-! ## Scopes inside scopes -/

namespace ScopeTree

variable {scopes : List Scope}

/-- The frames of a scope in a tree are all own frames of scopes in it. -/
theorem lt_of_mem_chain (h : ScopeTree scopes) {s : Scope} (hs : s ∈ scopes) {k : Nat} (hk : k ∈ s.chain) :
    k < scopes.length := by
  induction h generalizing s k with
  | global =>
    obtain rfl := List.mem_singleton.1 hs
    exact List.mem_singleton.1 hk ▸ Nat.one_pos
  | @inside scopes outer _ houter ih =>
    rw [List.length_append, List.length_singleton]
    rcases List.mem_append.1 hs with hs | hs
    · exact Nat.lt_succ_of_lt (ih hs hk)
    · obtain rfl := List.mem_singleton.1 hs
      rcases List.mem_cons.1 hk with rfl | hk
      · exact Nat.lt_succ_self _
      · exact Nat.lt_succ_of_lt (ih houter hk)

/-- A frame on the chain of a scope brings the whole chain of the scope it belongs to. -/
theorem chain_suffix_of_mem (h : ScopeTree scopes) {s s' : Scope} (hs : s ∈ scopes) (hs' : s' ∈ scopes)
    (hmem : s.own ∈ s'.chain) : s.chain <:+ s'.chain := by
  induction h generalizing s s' with
  | global =>
    obtain rfl := List.mem_singleton.1 hs
    obtain rfl := List.mem_singleton.1 hs'
    exact List.suffix_refl _
  | @inside scopes outer htree houter ih =>
    rcases List.mem_append.1 hs with hs | hs
    · rcases List.mem_append.1 hs' with hs' | hs'
      · exact ih hs hs' hmem
      · obtain rfl := List.mem_singleton.1 hs'
        rcases List.mem_cons.1 hmem with hown | hmem
        · exact absurd hown (Nat.ne_of_lt (htree.own_lt hs))
        · exact (ih hs houter hmem).trans (List.suffix_cons _ _)
    · obtain rfl := List.mem_singleton.1 hs
      rcases List.mem_append.1 hs' with hs' | hs'
      · exact absurd (htree.lt_of_mem_chain hs' hmem) (Nat.lt_irrefl _)
      · obtain rfl := List.mem_singleton.1 hs'
        exact List.suffix_refl _

/-- No frame stands twice on a chain. -/
theorem nodup_chain (h : ScopeTree scopes) {s : Scope} (hs : s ∈ scopes) : s.chain.Nodup := by
  induction h generalizing s with
  | global =>
    obtain rfl := List.mem_singleton.1 hs
    exact List.nodup_singleton _
  | @inside scopes outer htree houter ih =>
    rcases List.mem_append.1 hs with hs | hs
    · exact ih hs
    · obtain rfl := List.mem_singleton.1 hs
      exact List.nodup_cons.2 ⟨fun hmem => Nat.lt_irrefl _ (htree.lt_of_mem_chain houter hmem), ih houter⟩

end ScopeTree

/-- Whether a scope sees the bindings of a name that another scope makes: the other one is on its chain, and no nearer
frame binds the name. -/
def Frames.Sees {ν : Type} (f : Frames ν) (s' s : Scope) (name : String) : Prop :=
  ∃ nearer, s'.chain = nearer ++ s.chain ∧ ∀ k ∈ nearer, f.value? k name = none

/-- In a tree, what a scope binds is seen by the scopes that its own frame is exposed to. -/
theorem ScopeTree.sees_iff {ν : Type} {scopes : List Scope} (h : ScopeTree scopes) {s s' : Scope} (hs : s ∈ scopes)
    (hs' : s' ∈ scopes) (f : Frames ν) (name : String) : f.Sees s' s name ↔ f.Exposes s' name s.own := by
  constructor
  · rintro ⟨nearer, hchain, hnearer⟩
    exact ⟨nearer, s.outer, hchain, hnearer⟩
  · rintro ⟨nearer, further, hchain, hnearer⟩
    have hmem : s.own ∈ s'.chain := hchain ▸ List.mem_append_right _ List.mem_cons_self
    obtain ⟨front, hfront⟩ := h.chain_suffix_of_mem hs hs' hmem
    have hsplit : front ++ s.own :: s.outer = nearer ++ s.own :: further := hfront.trans hchain
    -- The own frame stands on the chain once only, so both ways to come to it are one.
    have hnodup : (s.own :: (nearer ++ further)).Nodup := List.nodup_middle.1 (hchain ▸ h.nodup_chain hs')
    have honce : s.own ∉ nearer ∧ s.own ∉ further := by simpa using (List.nodup_cons.1 hnodup).1
    obtain ⟨rfl, -, -⟩ := (List.append_cons_inj_of_notMem honce.1 honce.2).1 hsplit.symm
    exact ⟨nearer, hfront.symm, hnearer⟩

/-! ## Operations on a tree -/

/-- Frames together with the scopes that were opened. -/
structure Scoping where
  frames : Frames Value
  scopes : List Scope

namespace Scoping

/-- What comes about by any sequence of operations from one scope without bindings. An operation that is refused leaves
everything as it is. -/
inductive Reached : Scoping → Prop
  | root : Reached ⟨.initial, [.global]⟩
  | child {t : Scoping} {s : Scope} : Reached t → s ∈ t.scopes →
      Reached ⟨(t.frames.child s).2, t.scopes ++ [(t.frames.child s).1]⟩
  | define {t : Scoping} {s : Scope} {name : String} {v : Value} {f : Frames Value} : Reached t → s ∈ t.scopes →
      t.frames.define s name v = .ok f → Reached ⟨f, t.scopes⟩
  | assign {t : Scoping} {s : Scope} {name : String} {v : Value} {f : Frames Value} : Reached t → s ∈ t.scopes →
      t.frames.assign s name v = .ok f → Reached ⟨f, t.scopes⟩
  | bind {t : Scoping} {s : Scope} (name : String) (v : Value) : Reached t → s ∈ t.scopes →
      Reached ⟨t.frames.bind s name v, t.scopes⟩

/-- The scopes that were opened are a tree, with a frame for each. -/
theorem Reached.tree {t : Scoping} (h : t.Reached) : ScopeTree t.scopes ∧ t.scopes.length = t.frames.size := by
  induction h with
  | root => exact ⟨.global, rfl⟩
  | @child t s _ hs ih =>
    obtain ⟨htree, hsize⟩ := ih
    refine ⟨?_, ?_⟩
    · show ScopeTree (t.scopes ++ [⟨t.frames.size, s.chain⟩])
      rw [← hsize]
      exact .inside htree hs
    · show (t.scopes ++ [_]).length = t.frames.grow.size
      rw [List.length_append, hsize, Frames.size_grow]
      rfl
  | @define t s name v f _ _ hf ih =>
    unfold Frames.define at hf
    split at hf
    · cases hf
    · obtain rfl := Except.ok.inj hf
      exact ⟨ih.1, ih.2.trans (Frames.size_put ..).symm⟩
  | @assign t s name v f _ _ hf ih =>
    unfold Frames.assign at hf
    split at hf
    · obtain rfl := Except.ok.inj hf
      exact ⟨ih.1, ih.2.trans (Frames.size_put ..).symm⟩
    · cases hf
  | bind name v _ _ ih => exact ⟨ih.1, ih.2.trans (Frames.size_put ..).symm⟩

/-- A name means a new value in some scopes. In all other scopes it means what it did, and so does every other name. -/
def Revalues (t : Scoping) (f : Frames Value) (name : String) (v : Value) (seen : Scope → Prop) : Prop :=
  ∀ s' ∈ t.scopes, ∀ n, (n = name ∧ seen s' → f.lookup? s' n = some v) ∧
    (¬ (n = name ∧ seen s') → f.lookup? s' n = t.frames.lookup? s' n)

/-- The laws of lexical scoping: what each operation does to the meaning of names, in every scope. -/
structure Lexical (t : Scoping) : Prop where
  define : ∀ s ∈ t.scopes, ∀ name v, isReserved name = false → ∃ f, t.frames.define s name v = .ok f ∧
    t.Revalues f name v fun s' => t.frames.Sees s' s name
  assign : ∀ s ∈ t.scopes, ∀ name v frame, t.frames.Owner s name frame → ∃ f, t.frames.assign s name v = .ok f ∧
    (t.Revalues f name v fun s' => t.frames.Owner s' name frame) ∧
      ∀ k, (f.bindings k).names = (t.frames.bindings k).names
  /-- A refused definition leaves all of a store as it is. -/
  reserved : ∀ s ∈ t.scopes, ∀ name v, isReserved name = true →
    t.frames.define s name v = .error (.reserved name) ∧ (ScopeError.reserved name).code.number = 28 ∧
      ∀ st : Store, Eval.define s name v st = .error (.fault (.ofScope (.reserved name))) st
  /-- A refused assignment leaves all of a store as it is. -/
  undefined : ∀ s ∈ t.scopes, ∀ name v, (∀ frame, ¬ t.frames.Owner s name frame) →
    t.frames.assign s name v = .error (.undefined name) ∧ (ScopeError.undefined name).code.number = 1 ∧
      ∀ st : Store, st.frames = t.frames → Eval.assign s name v st = .error (.fault (.ofScope (.undefined name))) st
  /-- A name means its value in the frame that it belongs to, whichever way it is asked for. -/
  lookup : ∀ s ∈ t.scopes, ∀ name v, (t.frames.lookup? s name = some v ↔
      ∃ frame, t.frames.Owner s name frame ∧ t.frames.value? frame name = some v) ∧
    (t.frames.lookup s name = .ok v ↔ t.frames.lookup? s name = some v)
  unbound : ∀ s ∈ t.scopes, ∀ name, (t.frames.lookup? s name = none ↔ ∀ frame, ¬ t.frames.Owner s name frame) ∧
    (t.frames.lookup s name = .error (.undefined name) ↔ t.frames.lookup? s name = none) ∧
      (t.frames.has s name = false ↔ t.frames.lookup? s name = none)

theorem revalues_put {t : Scoping} {frame : Nat} (hframe : frame < t.frames.size) (name : String) (v : Value)
    {seen : Scope → Prop} (hseen : ∀ s' ∈ t.scopes, seen s' ↔ t.frames.Exposes s' name frame) :
    t.Revalues (t.frames.put frame name v) name v seen := by
  intro s' hs' n
  refine ⟨fun ⟨hn, hsees⟩ => ?_, fun hunseen => ?_⟩
  · rw [hn]
    exact Frames.lookup?_put_of_exposes hframe v ((hseen s' hs').1 hsees)
  · by_cases hn : n = name
    · rw [hn]
      exact Frames.lookup?_put_of_not_exposes v fun hexposes => hunseen ⟨hn, (hseen s' hs').2 hexposes⟩
    · exact Frames.lookup?_put_of_ne hn v

/-- In a tree of scopes that came about by any sequence of operations, names mean what lexical scoping says. -/
theorem lexical_of_reached {t : Scoping} (h : t.Reached) : t.Lexical := by
  obtain ⟨htree, hsize⟩ := h.tree
  constructor
  case define =>
    intro s hs name v hfree
    refine ⟨t.frames.bind s name v, by simp [Frames.define, hfree], ?_⟩
    exact revalues_put (hsize ▸ htree.own_lt hs) name v fun s' hs' => htree.sees_iff hs hs' t.frames name
  case assign =>
    intro s hs name v frame howner
    -- The frame that owns the name need not be the own frame of a scope that sees it.
    obtain ⟨w, hw⟩ := Option.isSome_iff_exists.1 howner.2
    refine ⟨t.frames.put frame name v, Frames.assign_of_owner howner v, ?_, Frames.names_put t.frames howner.2 v⟩
    exact revalues_put (Frames.lt_size_of_value? hw) name v fun s' _ => ⟨fun h => h.1, fun h => ⟨h, howner.2⟩⟩
  case reserved =>
    intro s hs name v hreserved
    refine ⟨by simp [Frames.define, hreserved], rfl, fun st => ?_⟩
    rw [Eval.define_eq_onFrames, Eval.onFrames, Frames.define, if_pos hreserved]
  case undefined =>
    intro s hs name v hnone
    refine ⟨Frames.assign_of_no_owner hnone v, rfl, fun st hst => ?_⟩
    rw [Eval.assign_eq_onFrames, Eval.onFrames, hst, Frames.assign_of_no_owner hnone v]
  case lookup => exact fun s _ name v => ⟨Frames.lookup?_eq_some_iff, Frames.lookup_eq_ok⟩
  case unbound =>
    intro s _ name
    refine ⟨Frames.lookup?_eq_none_iff, ?_, by simp [Frames.has]⟩
    unfold Frames.lookup
    cases t.frames.lookup? s name with
    | none => simp
    | some w => simp

/-- A scope `inner` in a scope `middle` that binds `x`, and a scope `beside`; the scope around them binds `x` too. -/
def shadowed : Scoping :=
  let frames := (((Frames.initial.child .global).2.child ⟨1, [0]⟩).2.child .global).2
  { frames := (frames.bind .global "x" (.boolean false)).bind ⟨1, [0]⟩ "x" (.boolean true)
    scopes := [.global, ⟨1, [0]⟩, ⟨2, [1, 0]⟩, ⟨3, [0]⟩] }

theorem shadowed_reached : shadowed.Reached := by
  have hmiddle := Reached.root.child (s := .global) (by decide)
  have hinner := hmiddle.child (s := ⟨1, [0]⟩) (by decide)
  have hbeside := hinner.child (s := .global) (by decide)
  have houter := hbeside.bind (s := .global) "x" (.boolean false) (by decide)
  exact houter.bind (s := ⟨1, [0]⟩) "x" (.boolean true) (by decide)

/-- A new binding of `x` around all of them is seen beside the scope that has its own, and not inside. -/
theorem lexical_of_reached_shadowed : shadowed.Reached ∧ ∃ f,
    shadowed.frames.define .global "x" .nil = .ok f ∧ f.lookup? ⟨3, [0]⟩ "x" = some .nil ∧
      f.lookup? ⟨2, [1, 0]⟩ "x" = some (.boolean true) := by
  obtain ⟨f, hf, hmeans⟩ := (lexical_of_reached shadowed_reached).define .global (by decide) "x" .nil (by decide)
  have hhidden : ¬ shadowed.frames.Sees ⟨2, [1, 0]⟩ .global "x" := by
    rintro ⟨nearer, hchain, hnearer⟩
    have hchain : [2, 1] ++ [0] = nearer ++ [0] := hchain
    obtain rfl := List.append_cancel_right hchain
    have hbound : some (Value.boolean true) = none := hnearer 1 (by decide)
    cases hbound
  refine ⟨shadowed_reached, f, hf, ?_, ?_⟩
  · exact (hmeans ⟨3, [0]⟩ (by decide) "x").1 ⟨rfl, [3], rfl, List.forall_mem_singleton.2 rfl⟩
  · rw [(hmeans ⟨2, [1, 0]⟩ (by decide) "x").2 fun h => hhidden h.2]
    rfl

end Scoping

end Lisplet
