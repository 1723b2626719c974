import Lisplet.Proofs.Reading.Places
/-!
# Sameness of terms is an equivalence

Values are identical to themselves, in both directions and along chains (`Value.identical_refl`, `Value.identical_symm`,
`Value.identical_trans`), and so is what a term embeds. Hence terms that are the same are so in both directions and along
chains (`Term.same_symm`, `Term.same_trans`). A term is the same as itself if none of its numbers is NaN (`Term.same_refl`).
-/
namespace Lisplet

/-! ## Identity -/

namespace Value

mutual

/-- A value is identical to itself, and so is NaN, since numbers are told apart by their bits. -/
theorem identical_refl : (v : Value) → v.identical v = true
  | .list vs => identicalAll_refl vs
  | .number _ _ | .quaternion _ _ | .string _ _ | .symbol _ | .boolean _ | .closure _ _ | .expander _ _ _
  | .structType _ | .struct _ _ _ | .builtin _ | .error _ _ _ _ => by simp [identical]

theorem identicalAll_refl : (vs : List Value) → identicalAll vs vs = true
  | [] => rfl
  | v :: vs => by rw [identicalAll, identical_refl v, identicalAll_refl vs, Bool.and_self]

end

mutual

/-- Which of two values stands in front makes no difference to identity. -/
theorem identical_symm : (v w : Value) → v.identical w = true → w.identical v = true
  | .list vs, w, h => by
    cases w with
    | list ws => exact identicalAll_symm vs ws h
    | _ => cases h
  | .number _ _, w, h | .string _ _, w, h => by
    cases w <;> try cases h
    exact Bool.and_eq_true_iff.2 ((Bool.and_eq_true_iff.1 h).imp BEq.symm BEq.symm)
  | .quaternion _ _, w, h | .symbol _, w, h | .boolean _, w, h | .closure _ _, w, h | .expander _ _ _, w, h
  | .structType _, w, h | .struct _ _ _, w, h | .builtin _, w, h | .error _ _ _ _, w, h => by
    cases w <;> try cases h
    exact BEq.symm h

theorem identicalAll_symm : (vs ws : List Value) → identicalAll vs ws = true → identicalAll ws vs = true
  | [], [], _ => rfl
  | [], _ :: _, h => by cases h
  | _ :: _, [], h => by cases h
  | v :: vs, w :: ws, h => by
    obtain ⟨hv, hvs⟩ := Bool.and_eq_true_iff.1 h
    rw [identicalAll, identical_symm v w hv, identicalAll_symm vs ws hvs, Bool.and_self]

end

mutual

/-- Identity goes through a value in the middle; a row is compared value by value. -/
theorem identical_trans : (u v w : Value) → u.identical v = true → v.identical w = true → u.identical w = true
  | .list us, v, w, h, h' => by
    cases v with
    | list vs =>
      cases w with
      | list ws => exact identicalAll_trans us vs ws h h'
      | _ => cases h'
    | _ => cases h
  | .number _ _, v, w, h, h' | .string _ _, v, w, h, h' => by
    cases v <;> try cases h
    cases w <;> try cases h'
    obtain ⟨ho, hx⟩ := Bool.and_eq_true_iff.1 h
    exact Bool.and_eq_true_iff.2 ((Bool.and_eq_true_iff.1 h').imp (BEq.trans ho) (BEq.trans hx))
  | .quaternion _ _, v, w, h, h' | .symbol _, v, w, h, h' | .boolean _, v, w, h, h' | .closure _ _, v, w, h, h'
  | .expander _ _ _, v, w, h, h' | .structType _, v, w, h, h' | .struct _ _ _, v, w, h, h' | .builtin _, v, w, h, h'
  | .error _ _ _ _, v, w, h, h' => by
    cases v <;> try cases h
    cases w <;> try cases h'
    exact BEq.trans h h'

theorem identicalAll_trans : (us vs ws : List Value) → identicalAll us vs = true → identicalAll vs ws = true →
    identicalAll us ws = true
  | [], [], ws, _, h' => h'
  | [], _ :: _, _, h, _ => by cases h
  | _ :: _, [], _, h, _ => by cases h
  | _ :: _, _ :: _, [], _, h' => by cases h'
  | u :: us, v :: vs, w :: ws, h, h' => by
    obtain ⟨hu, hus⟩ := Bool.and_eq_true_iff.1 h
    obtain ⟨hv, hvs⟩ := Bool.and_eq_true_iff.1 h'
    rw [identicalAll, identical_trans u v w hu hv, identicalAll_trans us vs ws hus hvs, Bool.and_self]

end

end Value

/-! ## Sameness -/

namespace Term

theorem mem_nodes_self (t : Code) : t ∈ t.nodes := by cases t <;> exact List.mem_cons_self

mutual

/-- What is below a node of a term is below the term. -/
theorem nodes_subset_nodes : (t : Code) → ∀ u ∈ t.nodes, u.nodes ⊆ t.nodes
  | .list pos ts, u, hu => by
    rcases List.mem_cons.1 hu with rfl | hu
    · exact List.Subset.refl _
    · exact List.subset_cons_of_subset _ (nodes_subset_nodesAll ts u hu)
  | .marked pos m t, u, hu => by
    rcases List.mem_cons.1 hu with rfl | hu
    · exact List.Subset.refl _
    · exact List.subset_cons_of_subset _ (nodes_subset_nodes t u hu)
  | .format pos ps, u, hu => by
    rcases List.mem_cons.1 hu with rfl | hu
    · exact List.Subset.refl _
    · exact List.subset_cons_of_subset _ (nodes_subset_partNodes ps u hu)
  | .number _ _, u, hu | .string _ _, u, hu | .symbol _ _, u, hu | .boolean _ _, u, hu | .nil _, u, hu
  | .embedded _ _, u, hu => by
    rw [List.mem_singleton.1 hu]
    exact List.Subset.refl _

theorem nodes_subset_nodesAll : (ts : List Code) → ∀ u ∈ nodesAll ts, u.nodes ⊆ nodesAll ts
  | [], u, hu => by cases hu
  | t :: ts, u, hu => by
    rcases List.mem_append.1 hu with hu | hu
    · exact List.subset_append_of_subset_left _ (nodes_subset_nodes t u hu)
    · exact List.subset_append_of_subset_right _ (nodes_subset_nodesAll ts u hu)

theorem nodes_subset_partNodes : (ps : List (Part Value)) → ∀ u ∈ Part.nodesAll ps, u.nodes ⊆ Part.nodesAll ps
  | [], u, hu => by cases hu
  | .text _ :: ps, u, hu => nodes_subset_partNodes ps u hu
  | .code t :: ps, u, hu => by
    rcases List.mem_append.1 hu with hu | hu
    · exact List.subset_append_of_subset_left _ (nodes_subset_nodes t u hu)
    · exact List.subset_append_of_subset_right _ (nodes_subset_partNodes ps u hu)

end

/-- A node of a row is a node of one of its terms. -/
theorem exists_mem_of_mem_nodesAll {ts : List Code} {u : Code} (h : u ∈ nodesAll ts) : ∃ t ∈ ts, u ∈ t.nodes := by
  induction ts with
  | nil => cases h
  | cons t ts ih =>
    rcases List.mem_append.1 h with ht | hts
    · exact ⟨t, List.mem_cons_self, ht⟩
    · obtain ⟨t', ht', hu⟩ := ih hts
      exact ⟨t', List.mem_cons_of_mem t ht', hu⟩

/-- A term none of whose numbers is NaN. -/
def NaNFree (t : Code) : Prop := ∀ pos x, .number pos x ∈ t.nodes → Number.isNaN x = false

/-- A term without NaN has none further down either. -/
theorem nanFree_of_mem_nodes {t u : Code} (h : t.NaNFree) (hu : u ∈ t.nodes) : u.NaNFree := fun pos x hx =>
  h pos x (nodes_subset_nodes t u hu hx)

mutual

/-- A term is the same as itself if no number in it is NaN, which is not equal to itself. -/
theorem same_refl : (t : Code) → t.NaNFree → t.same t = true
  | .number pos x, h => Number.equal_refl (h pos x List.mem_cons_self)
  | .list pos ts, h => sameAll_refl ts fun p x hx => h p x (List.mem_cons_of_mem _ hx)
  | .marked pos m t, h => by
    rw [same, same_refl t fun p x hx => h p x (List.mem_cons_of_mem _ hx), beq_self_eq_true, Bool.and_self]
  | .format pos ps, h => sameParts_refl ps fun p x hx => h p x (List.mem_cons_of_mem _ hx)
  | .embedded _ v, _ => v.identical_refl
  | .string _ _, _ | .symbol _ _, _ | .boolean _ _, _ | .nil _, _ => by simp [same]

theorem sameAll_refl : (ts : List Code) → (∀ pos x, .number pos x ∈ nodesAll ts → Number.isNaN x = false) →
    sameAll ts ts = true
  | [], _ => rfl
  | t :: ts, h => by
    rw [sameAll, same_refl t fun p x hx => h p x (List.mem_append_left _ hx),
      sameAll_refl ts fun p x hx => h p x (List.mem_append_right _ hx), Bool.and_self]

theorem sameParts_refl : (ps : List (Part Value)) →
    (∀ pos x, .number pos x ∈ Part.nodesAll ps → Number.isNaN x = false) → sameParts ps ps = true
  | [], _ => rfl
  | .text s :: ps, h => by rw [sameParts, beq_self_eq_true, sameParts_refl ps h, Bool.and_self]
  | .code t :: ps, h => by
    rw [sameParts, same_refl t fun p x hx => h p x (List.mem_append_left _ hx),
      sameParts_refl ps fun p x hx => h p x (List.mem_append_right _ hx), Bool.and_self]

end

mutual

/-- Sameness does not depend on the order, since both terms are gone through together. -/
theorem same_symm : (t u : Code) → t.same u = true → u.same t = true
  | .number _ _, u, h => by
    cases u with
    | number _ y => exact Number.equal_symm h
    | _ => cases h
  | .list _ ts, u, h => by
    cases u with
    | list _ us => exact sameAll_symm ts us h
    | _ => cases h
  | .marked _ m t, u, h => by
    cases u with
    | marked _ n u =>
      obtain ⟨hm, ht⟩ := Bool.and_eq_true_iff.1 h
      rw [same, same_symm t u ht, eq_of_beq hm, beq_self_eq_true, Bool.and_self]
    | _ => cases h
  | .format _ ps, u, h => by
    cases u with
    | format _ qs => exact sameParts_symm ps qs h
    | _ => cases h
  | .embedded _ v, u, h => by
    cases u with
    | embedded _ w => exact v.identical_symm w h
    | _ => cases h
  | .string _ _, u, h | .symbol _ _, u, h | .boolean _ _, u, h => by
    cases u <;> try cases h
    exact BEq.symm h
  | .nil _, u, h => by
    cases u <;> first | rfl | cases h

theorem sameAll_symm : (ts us : List Code) → sameAll ts us = true → sameAll us ts = true
  | [], [], _ => rfl
  | [], _ :: _, h => by cases h
  | _ :: _, [], h => by cases h
  | t :: ts, u :: us, h => by
    obtain ⟨ht, hts⟩ := Bool.and_eq_true_iff.1 h
    rw [sameAll, same_symm t u ht, sameAll_symm ts us hts, Bool.and_self]

theorem sameParts_symm : (ps qs : List (Part Value)) → sameParts ps qs = true → sameParts qs ps = true
  | [], [], _ => rfl
  | [], _ :: _, h => by cases h
  | .text _ :: _, [], h => by cases h
  | .code _ :: _, [], h => by cases h
  | .text _ :: _, .code _ :: _, h => by cases h
  | .code _ :: _, .text _ :: _, h => by cases h
  | .text s :: ps, .text s' :: qs, h => by
    obtain ⟨hs, hps⟩ := Bool.and_eq_true_iff.1 h
    rw [sameParts, eq_of_beq hs, beq_self_eq_true, sameParts_symm ps qs hps, Bool.and_self]
  | .code t :: ps, .code u :: qs, h => by
    obtain ⟨ht, hps⟩ := Bool.and_eq_true_iff.1 h
    rw [sameParts, same_symm t u ht, sameParts_symm ps qs hps, Bool.and_self]

end

mutual

/-- Sameness goes through a term in the middle. All three are of one kind, or the premises are false. -/
theorem same_trans : (t u w : Code) → t.same u = true → u.same w = true → t.same w = true
  | .number _ _, u, w, h, h' => by
    cases u with
    | number _ y =>
      cases w with
      | number _ z => exact Number.equal_trans h h'
      | _ => cases h'
    | _ => cases h
  | .list _ ts, u, w, h, h' => by
    cases u with
    | list _ us =>
      cases w with
      | list _ ws => exact sameAll_trans ts us ws h h'
      | _ => cases h'
    | _ => cases h
  | .marked _ m t, u, w, h, h' => by
    cases u with
    | marked _ n u =>
      cases w with
      | marked _ o w =>
        obtain ⟨hm, ht⟩ := Bool.and_eq_true_iff.1 h
        obtain ⟨hn, hu⟩ := Bool.and_eq_true_iff.1 h'
        rw [same, same_trans t u w ht hu, eq_of_beq hm, eq_of_beq hn, beq_self_eq_true, Bool.and_self]
      | _ => cases h'
    | _ => cases h
  | .format _ ps, u, w, h, h' => by
    cases u with
    | format _ qs =>
      cases w with
      | format _ rs => exact sameParts_trans ps qs rs h h'
      | _ => cases h'
    | _ => cases h
  | .embedded _ v, u, w, h, h' => by
    cases u with
    | embedded _ v' =>
      cases w with
      | embedded _ v'' => exact v.identical_trans v' v'' h h'
      | _ => cases h'
    | _ => cases h
  | .string _ _, u, w, h, h' | .symbol _ _, u, w, h, h' | .boolean _ _, u, w, h, h' => by
    cases u <;> try cases h
    cases w <;> try cases h'
    exact BEq.trans h h'
  | .nil _, u, w, h, h' => by
    cases u <;> try cases h
    cases w <;> first | rfl | cases h'

theorem sameAll_trans : (ts us ws : List Code) → sameAll ts us = true → sameAll us ws = true → sameAll ts ws = true
  | [], [], ws, _, h' => h'
  | [], _ :: _, _, h, _ => by cases h
  | _ :: _, [], _, h, _ => by cases h
  | _ :: _, _ :: _, [], _, h' => by cases h'
  | t :: ts, u :: us, w :: ws, h, h' => by
    obtain ⟨ht, hts⟩ := Bool.and_eq_true_iff.1 h
    obtain ⟨hu, hus⟩ := Bool.and_eq_true_iff.1 h'
    rw [sameAll, same_trans t u w ht hu, sameAll_trans ts us ws hts hus, Bool.and_self]

theorem sameParts_trans : (ps qs rs : List (Part Value)) → sameParts ps qs = true → sameParts qs rs = true →
    sameParts ps rs = true
  | [], [], rs, _, h' => h'
  | [], _ :: _, _, h, _ => by cases h
  | .text _ :: _, [], _, h, _ | .code _ :: _, [], _, h, _ => by cases h
  | .text _ :: _, .code _ :: _, _, h, _ | .code _ :: _, .text _ :: _, _, h, _ => by cases h
  | .text _ :: _, .text _ :: _, [], _, h' | .code _ :: _, .code _ :: _, [], _, h' => by cases h'
  | .text _ :: _, .text _ :: _, .code _ :: _, _, h' | .code _ :: _, .code _ :: _, .text _ :: _, _, h' => by cases h'
  | .text s :: ps, .text s' :: qs, .text s'' :: rs, h, h' => by
    obtain ⟨hs, hps⟩ := Bool.and_eq_true_iff.1 h
    obtain ⟨hs', hqs⟩ := Bool.and_eq_true_iff.1 h'
    rw [sameParts, eq_of_beq hs, eq_of_beq hs', beq_self_eq_true, sameParts_trans ps qs rs hps hqs, Bool.and_self]
  | .code t :: ps, .code u :: qs, .code w :: rs, h, h' => by
    obtain ⟨ht, hps⟩ := Bool.and_eq_true_iff.1 h
    obtain ⟨hu, hqs⟩ := Bool.and_eq_true_iff.1 h'
    rw [sameParts, same_trans t u w ht hu, sameParts_trans ps qs rs hps hqs, Bool.and_self]

end

end Term

end Lisplet
