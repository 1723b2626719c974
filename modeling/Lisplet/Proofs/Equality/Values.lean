import Lisplet.Proofs.Equality.Terms
import Lisplet.Proofs.Soundness.Reachable
import Lisplet.Value.Equality
/-!
# Equality of values is an equivalence, and quoting respects it

Equality of values holds in both directions and along chains (`Value.equal_symm`, `Value.equal_trans`), and of a value with
itself if there is no NaN in it (`Value.equal_refl`). Terms that are the same denote equal data (`Term.equal_toValue`).
What terms embed is compared by identity, so there a stamp decides; of sound values with one stamp one is the other, which
is why they are equal (`Value.equal_of_identical`).

Main statement: `equal_equivalence`. In a state that can be reached all values are sound on one ground, so of terms that
embed values of such a state it says that quoting respects sameness (`Run.equal_toValue_of_steps`).
-/
namespace Lisplet

namespace Value

/-! ## Values without NaN -/

mutual

/-- Whether there is a NaN in a value: in a number, a part of a quaternion, an item of a list, a field of a struct or the
payload of an error. -/
def hasNaN : Value → Bool
  | number _ x => Number.isNaN x
  | quaternion _ q => Number.isNaN q.a || Number.isNaN q.b || Number.isNaN q.c || Number.isNaN q.d
  | list vs => hasNaNAny vs
  | struct _ _ vs => hasNaNAny vs
  | error _ _ _ p => hasNaNPayload p
  | _ => false
termination_by structural v => v

/-- Whether there is a NaN in one of a row of values. -/
def hasNaNAny : List Value → Bool
  | [] => false
  | v :: vs => hasNaN v || hasNaNAny vs
termination_by structural vs => vs

/-- Whether there is a NaN in what an error carries. -/
def hasNaNPayload : Option Value → Bool
  | none => false
  | some v => hasNaN v
termination_by structural p => p

end

/-! ## Equality is an equivalence -/

mutual

/-- A value is equal to itself if there is no NaN in it. -/
theorem equal_refl : (v : Value) → v.hasNaN = false → v.equal v = true
  | .number _ _, h => Number.equal_refl h
  | .quaternion _ q, h => by
    obtain ⟨⟨⟨ha, hb⟩, hc⟩, hd⟩ : ((_ ∧ _) ∧ _) ∧ _ := by simpa only [hasNaN, Bool.or_eq_false_iff] using h
    rw [equal, Number.equal_refl ha, Number.equal_refl hb, Number.equal_refl hc, Number.equal_refl hd]
    rfl
  | .list vs, h => equalAll_refl vs h
  | .struct _ type vs, h => by rw [equal, beq_self_eq_true, equalAll_refl vs h, Bool.and_self]
  | .error _ code description p, h => by
    rw [equal, beq_self_eq_true, beq_self_eq_true, equalPayload_refl p h, Bool.and_self, Bool.and_self]
  | .closure _ _, _ | .expander _ _ _, _ | .builtin _, _ => identical_refl _
  | .string _ _, _ | .symbol _, _ | .boolean _, _ | .structType _, _ => by simp [equal]

theorem equalAll_refl : (vs : List Value) → hasNaNAny vs = false → equalAll vs vs = true
  | [], _ => rfl
  | v :: vs, h => by
    obtain ⟨hv, hvs⟩ := Bool.or_eq_false_iff.1 h
    rw [equalAll, equal_refl v hv, equalAll_refl vs hvs, Bool.and_self]

theorem equalPayload_refl : (p : Option Value) → hasNaNPayload p = false → equalPayload p p = true
  | none, _ => rfl
  | some v, h => equal_refl v h

end

mutual

/-- Which of two values stands in front makes no difference to equality. -/
theorem equal_symm : (v w : Value) → v.equal w = true → w.equal v = true
  | .number _ _, w, h => by
    cases w with
    | number _ y => exact Number.equal_symm h
    | _ => cases h
  | .quaternion _ p, w, h => by
    cases w with
    | quaternion _ q =>
      simp only [equal, Bool.and_eq_true] at h ⊢
      exact h.imp (And.imp (And.imp Number.equal_symm Number.equal_symm) Number.equal_symm) Number.equal_symm
    | _ => cases h
  | .list vs, w, h => by
    cases w with
    | list ws => exact equalAll_symm vs ws h
    | _ => cases h
  | .struct _ type vs, w, h => by
    cases w with
    | struct _ type' ws =>
      obtain ⟨hid, hvs⟩ := Bool.and_eq_true_iff.1 h
      rw [equal, equalAll_symm vs ws hvs, eq_of_beq hid, beq_self_eq_true, Bool.and_self]
    | _ => cases h
  | .error _ code description p, w, h => by
    cases w with
    | error _ code' description' q =>
      obtain ⟨hfront, hp⟩ := Bool.and_eq_true_iff.1 h
      obtain ⟨hcode, hdescription⟩ := Bool.and_eq_true_iff.1 hfront
      rw [equal, equalPayload_symm p q hp, eq_of_beq hcode, eq_of_beq hdescription, beq_self_eq_true, beq_self_eq_true]
      rfl
    | _ => cases h
  | .closure _ _, w, h | .expander _ _ _, w, h | .builtin _, w, h => by
    cases w <;> try cases h
    exact identical_symm _ _ h
  | .string _ _, w, h | .symbol _, w, h | .boolean _, w, h | .structType _, w, h => by
    cases w <;> try cases h
    exact BEq.symm h

theorem equalAll_symm : (vs ws : List Value) → equalAll vs ws = true → equalAll ws vs = true
  | [], [], _ => rfl
  | [], _ :: _, h => by cases h
  | _ :: _, [], h => by cases h
  | v :: vs, w :: ws, h => by
    obtain ⟨hv, hvs⟩ := Bool.and_eq_true_iff.1 h
    rw [equalAll, equal_symm v w hv, equalAll_symm vs ws hvs, Bool.and_self]

theorem equalPayload_symm : (p q : Option Value) → equalPayload p q = true → equalPayload q p = true
  | none, none, _ => rfl
  | none, some _, h => by cases h
  | some _, none, h => by cases h
  | some v, some w, h => equal_symm v w h

end

mutual

theorem equal_trans : (u v w : Value) → u.equal v = true → v.equal w = true → u.equal w = true
  | .number _ _, v, w, h, h' => by
    cases v with
    | number _ _ =>
      cases w with
      | number _ _ => exact Number.equal_trans h h'
      | _ => cases h'
    | _ => cases h
  | .quaternion _ p, v, w, h, h' => by
    cases v with
    | quaternion _ _ =>
      cases w with
      | quaternion _ _ =>
        simp only [equal, Bool.and_eq_true] at h h' ⊢
        obtain ⟨⟨⟨ha, hb⟩, hc⟩, hd⟩ := h
        obtain ⟨⟨⟨ha', hb'⟩, hc'⟩, hd'⟩ := h'
        exact ⟨⟨⟨Number.equal_trans ha ha', Number.equal_trans hb hb'⟩, Number.equal_trans hc hc'⟩,
          Number.equal_trans hd hd'⟩
      | _ => cases h'
    | _ => cases h
  | .list us, v, w, h, h' => by
    cases v with
    | list vs =>
      cases w with
      | list ws => exact equalAll_trans us vs ws h h'
      | _ => cases h'
    | _ => cases h
  | .struct _ _ us, v, w, h, h' => by
    cases v with
    | struct _ _ vs =>
      cases w with
      | struct _ _ ws =>
        obtain ⟨hid, hus⟩ := Bool.and_eq_true_iff.1 h
        obtain ⟨hid', hvs⟩ := Bool.and_eq_true_iff.1 h'
        rw [equal, equalAll_trans us vs ws hus hvs, eq_of_beq hid, eq_of_beq hid', beq_self_eq_true, Bool.and_self]
      | _ => cases h'
    | _ => cases h
  | .error _ _ _ p, v, w, h, h' => by
    cases v with
    | error _ _ _ q =>
      cases w with
      | error _ _ _ r =>
        simp only [equal, Bool.and_eq_true, beq_iff_eq] at h h' ⊢
        exact ⟨⟨h.1.1.trans h'.1.1, h.1.2.trans h'.1.2⟩, equalPayload_trans p q r h.2 h'.2⟩
      | _ => cases h'
    | _ => cases h
  | .closure _ _, v, w, h, h' | .expander _ _ _, v, w, h, h' | .builtin _, v, w, h, h' => by
    have hvw : v.identical w = true := by cases v <;> first | exact h' | cases h
    exact identical_trans _ v w h hvw
  | .string _ _, v, w, h, h' | .symbol _, v, w, h, h' | .boolean _, v, w, h, h' | .structType _, v, w, h, h' => by
    cases v <;> try cases h
    cases w <;> try cases h'
    exact BEq.trans h h'

theorem equalAll_trans : (us vs ws : List Value) → equalAll us vs = true → equalAll vs ws = true → equalAll us ws = true
  | [], [], ws, _, h' => h'
  | [], _ :: _, _, h, _ => by cases h
  | _ :: _, [], _, h, _ => by cases h
  | _ :: _, _ :: _, [], _, h' => by cases h'
  | u :: us, v :: vs, w :: ws, h, h' => by
    obtain ⟨hu, hus⟩ := Bool.and_eq_true_iff.1 h
    obtain ⟨hv, hvs⟩ := Bool.and_eq_true_iff.1 h'
    rw [equalAll, equal_trans u v w hu hv, equalAll_trans us vs ws hus hvs, Bool.and_self]

theorem equalPayload_trans : (p q r : Option Value) → equalPayload p q = true → equalPayload q r = true →
    equalPayload p r = true
  | none, none, r, _, h' => h'
  | none, some _, _, h, _ => by cases h
  | some _, none, _, h, _ => by cases h
  | some _, some _, none, _, h' => by cases h'
  | some u, some v, some w, h, h' => equal_trans u v w h h'

end

/-! ## Identical values are equal -/

/-- The stamp of a quaternion, a struct or an error. -/
def dataStamp? : Value → Option Stamp
  | quaternion stamp _ | struct stamp _ _ | error stamp _ _ _ => some stamp
  | _ => none

/-- Of all sound values with a stamp there is one only, the one that was made with it. -/
theorem Sound.made {g : Ground} {v : Value} {stamp : Stamp} (hv : v.Sound g) (hs : v.dataStamp? = some stamp) :
    g.made stamp = some v := by
  cases hv with
  | quaternion hm | struct _ _ hm _ | error hm _ =>
    obtain rfl := Option.some.inj hs
    exact hm
  | _ => cases hs

/-- Of the data that is sound on one ground and carries one stamp, one is the other. -/
theorem eq_of_dataStamp {g : Ground} {v w : Value} {stamp : Stamp} (hv : v.Sound g) (hw : w.Sound g)
    (hs : v.dataStamp? = some stamp) (hs' : w.dataStamp? = some stamp) : v = w :=
  Option.some.inj ((hv.made hs).symm.trans (hw.made hs'))

mutual

/-- Identical values are equal, as a stamp is that of one value. -/
theorem equal_of_identical {g : Ground} : (v w : Value) → v.Sound g → w.Sound g → v.hasNaN = false →
    v.identical w = true → v.equal w = true
  | .number _ x, w, _, _, hn, h => by
    cases w with
    | number _ y =>
      have hx : Number.isNaN x = false := hn
      have hbits : x.toBits = y.toBits := eq_of_beq (Bool.and_eq_true_iff.1 h).2
      simp [equal, Number.equal, hx, hbits]
    | _ => cases h
  | .list vs, w, hv, hw, hn, h => by
    cases w with
    | list ws =>
      cases hv with
      | list hvs =>
        cases hw with
        | list hws => exact equalAll_of_identicalAll vs ws hvs hws hn h
    | _ => cases h
  | .quaternion _ _, w, hv, hw, hn, h | .struct _ _ _, w, hv, hw, hn, h | .error _ _ _ _, w, hv, hw, hn, h => by
    cases w <;> try cases h
    exact eq_of_dataStamp hv hw rfl (congrArg some (eq_of_beq h).symm) ▸ equal_refl _ hn
  | .closure _ _, _, _, _, _, h | .expander _ _ _, _, _, _, _, h | .builtin _, _, _, _, _, h => h
  | .string _ _, w, _, _, _, h => by
    cases w <;> try cases h
    exact (Bool.and_eq_true_iff.1 h).2
  | .symbol _, w, _, _, _, h | .boolean _, w, _, _, _, h | .structType _, w, _, _, _, h => by
    cases w <;> exact h

theorem equalAll_of_identicalAll {g : Ground} : (vs ws : List Value) → SoundAll g vs → SoundAll g ws →
    hasNaNAny vs = false → identicalAll vs ws = true → equalAll vs ws = true
  | [], [], _, _, _, _ => rfl
  | [], _ :: _, _, _, _, h => by cases h
  | _ :: _, [], _, _, _, h => by cases h
  | v :: vs, w :: ws, hvs, hws, hn, h => by
    obtain ⟨hv, hvs⟩ := List.forall_mem_cons.1 hvs
    obtain ⟨hw, hws⟩ := List.forall_mem_cons.1 hws
    obtain ⟨hnv, hnvs⟩ := Bool.or_eq_false_iff.1 hn
    obtain ⟨h, hs⟩ := Bool.and_eq_true_iff.1 h
    rw [equalAll, equal_of_identical v w hv hw hnv h, equalAll_of_identicalAll vs ws hvs hws hnvs hs, Bool.and_self]

end

end Value

/-! ## Quoting -/

namespace Term

mutual

/-- Terms that are the same denote equal data. -/
theorem equal_toValue {g : Ground} : (t u : Code) → t.Sound g → u.Sound g → (∀ v ∈ t.values, v.hasNaN = false) →
    t.same u = true → t.toValue.equal u.toValue = true
  | .list _ ts, u, ht, hu, hn, h => by
    cases u with
    | list _ us => exact equalAll_toValues ts us (sound_list.1 ht) (sound_list.1 hu) hn h
    | _ => cases h
  | .marked _ m t, u, ht, hu, hn, h => by
    cases u with
    | marked _ n u =>
      obtain ⟨hm, hsame⟩ := Bool.and_eq_true_iff.1 h
      have hbody := equal_toValue t u ht hu hn hsame
      simp only [toValue, Value.equal, Value.equalAll, eq_of_beq hm, beq_self_eq_true, hbody, Bool.and_self]
    | _ => cases h
  | .format _ ps, u, ht, hu, hn, h => by
    cases u with
    | format _ qs =>
      have hparts := equalAll_partValues ps qs (sound_format.1 ht) (sound_format.1 hu) hn h
      simp only [toValue, Value.equal, Value.equalAll, beq_self_eq_true, hparts, Bool.and_self]
    | _ => cases h
  | .embedded _ v, u, ht, hu, hn, h => by
    cases u with
    | embedded _ w =>
      exact v.equal_of_identical w (sound_embedded.1 ht) (sound_embedded.1 hu) (hn v (by simp [values])) h
    | _ => cases h
  | .number _ _, u, _, _, _, h | .string _ _, u, _, _, _, h | .symbol _ _, u, _, _, _, h | .boolean _ _, u, _, _, _, h
  | .nil _, u, _, _, _, h => by
    cases u <;> first | exact h | cases h

theorem equalAll_toValues {g : Ground} : (ts us : List Code) → SoundAll g ts → SoundAll g us →
    (∀ v ∈ valuesAll ts, v.hasNaN = false) → sameAll ts us = true → Value.equalAll (toValues ts) (toValues us) = true
  | [], [], _, _, _, _ => rfl
  | [], _ :: _, _, _, _, h => by cases h
  | _ :: _, [], _, _, _, h => by cases h
  | t :: ts, u :: us, hts, hus, hn, h => by
    obtain ⟨ht, hts⟩ := List.forall_mem_cons.1 hts
    obtain ⟨hu, hus⟩ := List.forall_mem_cons.1 hus
    obtain ⟨hnt, hnts⟩ := List.forall_mem_append.1 hn
    obtain ⟨h, hs⟩ := Bool.and_eq_true_iff.1 h
    rw [toValues, toValues, Value.equalAll, equal_toValue t u ht hu hnt h, equalAll_toValues ts us hts hus hnts hs,
      Bool.and_self]

theorem equalAll_partValues {g : Ground} : (ps qs : List (Part Value)) → (∀ t, Part.code t ∈ ps → t.Sound g) →
    (∀ t, Part.code t ∈ qs → t.Sound g) → (∀ v ∈ Part.valuesAll ps, v.hasNaN = false) → sameParts ps qs = true →
    Value.equalAll (partValues ps) (partValues qs) = true
  | [], [], _, _, _, _ => rfl
  | [], _ :: _, _, _, _, h => by cases h
  | .text _ :: _, [], _, _, _, h => by cases h
  | .code _ :: _, [], _, _, _, h => by cases h
  | .text _ :: _, .code _ :: _, _, _, _, h => by cases h
  | .code _ :: _, .text _ :: _, _, _, _, h => by cases h
  | .text _ :: ps, .text _ :: qs, hps, hqs, hn, h => by
    obtain ⟨htext, hs⟩ := Bool.and_eq_true_iff.1 h
    have hrest := equalAll_partValues ps qs (fun t ht => hps t (List.mem_cons_of_mem _ ht))
      (fun t ht => hqs t (List.mem_cons_of_mem _ ht)) hn hs
    rw [partValues, partValues, Value.equalAll, Value.equal, htext, hrest, Bool.and_self]
  | .code t :: ps, .code u :: qs, hps, hqs, hn, h => by
    obtain ⟨hnt, hnps⟩ := List.forall_mem_append.1 hn
    obtain ⟨h, hs⟩ := Bool.and_eq_true_iff.1 h
    have hfirst := equal_toValue t u (hps t List.mem_cons_self) (hqs u List.mem_cons_self) hnt h
    have hrest := equalAll_partValues ps qs (fun t ht => hps t (List.mem_cons_of_mem _ ht))
      (fun t ht => hqs t (List.mem_cons_of_mem _ ht)) hnps hs
    rw [partValues, partValues, Value.equalAll, hfirst, hrest, Bool.and_self]

end

end Term

/-- In a state that can be reached, terms that are the same and embed values that are held there denote equal data. -/
theorem Run.equal_toValue_of_steps (world : World) (options : Options) {r : Run}
    (hr : Relation.ReflTransGen Step (fresh world options) r) {t u : Code} (ht : ∀ v ∈ t.values, r.Holds v)
    (hu : ∀ v ∈ u.values, r.Holds v) (hn : ∀ v ∈ t.values, v.hasNaN = false) (h : t.same u = true) :
    t.toValue.equal u.toValue = true := by
  obtain ⟨g, -, hsound⟩ := (sound_fresh world options).steps hr
  exact Term.equal_toValue t u (fun v hv => hsound.holds (ht v hv)) (fun v hv => hsound.holds (hu v hv)) hn h

/-- Equality is an equivalence on values without NaN, sameness is one on terms without NaN, and terms that are the same
denote equal data if there is no NaN in what they embed. What is embedded is sound on one ground, so that a stamp marks one
thing; whatever a state that can be reached holds is. -/
theorem equal_equivalence :
    ((∀ v : Value, v.hasNaN = false → v.equal v = true) ∧ (∀ v w : Value, v.equal w = true → w.equal v = true) ∧
      ∀ u v w : Value, u.equal v = true → v.equal w = true → u.equal w = true) ∧
    ((∀ t : Code, t.NaNFree → t.same t = true) ∧ (∀ t u : Code, t.same u = true → u.same t = true) ∧
      ∀ t u w : Code, t.same u = true → u.same w = true → t.same w = true) ∧
    ∀ (g : Ground) (t u : Code), t.Sound g → u.Sound g → (∀ v ∈ t.values, v.hasNaN = false) → t.same u = true →
      t.toValue.equal u.toValue = true :=
  ⟨⟨Value.equal_refl, Value.equal_symm, Value.equal_trans⟩, ⟨Term.same_refl, Term.same_symm, Term.same_trans⟩,
    fun _ => Term.equal_toValue⟩

/-- The struct `(make-tag "a")`, the first thing made. -/
def madeTag : Value := .struct 0 ⟨0, "tag", ["text"]⟩ [.string .made "a"]

/-- A quoted struct is the same wherever the quote stands, and denotes equal data. -/
theorem equal_equivalence_madeTag :
    (Term.marked .start .quote (.embedded .start madeTag)).toValue.equal
      (Term.marked .nowhere .quote (.embedded .nowhere madeTag)).toValue = true := by
  have hsound : madeTag.Sound ⟨⟨1, [⟨0, "tag", ["text"]⟩]⟩, [.global], fun _ => some madeTag⟩ :=
    .struct List.mem_cons_self rfl rfl (List.forall_mem_singleton.2 (.string _ _))
  have hterm (pos : Position) : Term.Sound _ (.marked pos .quote (.embedded pos madeTag)) :=
    Term.sound_marked.2 (Term.sound_embedded.2 hsound)
  exact equal_equivalence.2.2 _ _ _ (hterm .start) (hterm .nowhere) (List.forall_mem_singleton.2 rfl) rfl

end Lisplet
