import Lisplet.Proofs.Likeness.Quotation
import Lisplet.Proofs.Macros.Templates
import Lisplet.Proofs.Reading.Infix
/-!
# Over the bridge and back

Data survives the way into code and back: numbers, strings, symbols, booleans and lists are built anew with what they hold, and
everything else is the very thing that went in (`Value.sameData_toValue_toTerm`). Code that was read comes back as its long
spelling, so it survives the way into data and back just if there is no shorthand in it (`Term.same_toTerm_toValue`).
-/
namespace Lisplet

/-! ## Data -/

namespace Value

mutual

/-- Data of one structure, whose numbers and strings hold the same and whose other leaves are one and the same thing. -/
def SameData : Value → Value → Prop
  | number _ x, number _ y => x = y
  | string _ s, string _ t => s = t
  | list vs, list ws => SameDataAll vs ws
  | v, w => v = w
termination_by structural v => v

/-- Rows of such data. -/
def SameDataAll : List Value → List Value → Prop
  | [], [] => True
  | v :: vs, w :: ws => SameData v w ∧ SameDataAll vs ws
  | _, _ => False
termination_by structural vs => vs

end

mutual

theorem sameData_remade : (v : Value) → v.SameData v.remade
  | .list items => sameDataAll_remadeAll items
  | .number _ _ | .string _ _ | .symbol _ | .boolean _ | .quaternion _ _ | .closure _ _ | .expander _ _ _
  | .structType _ | .struct _ _ _ | .builtin _ | .error _ _ _ _ => rfl

theorem sameDataAll_remadeAll : (vs : List Value) → SameDataAll vs (remadeAll vs)
  | [] => trivial
  | v :: vs => ⟨sameData_remade v, sameDataAll_remadeAll vs⟩

end

theorem sameData_toValue_toTerm (v : Value) (pos : Position) : v.SameData (v.toTerm pos).toValue := by
  rw [toValue_toTerm]
  exact v.sameData_remade

/-- The place at which data becomes code cannot be seen by someone who is blind for places. -/
theorem seen_toTerm_blind (v : Value) (pos pos' : Position) : (v.toTerm pos).seen .blind = (v.toTerm pos').seen .blind := by
  rw [toTerm_seen, toTerm_seen]
  rfl

end Value

/-! ## Code -/

namespace Term

/-- A node that denotes what it shows: a number, a string, a symbol, a boolean or a list. -/
def isBare : Code → Bool
  | number _ _ | string _ _ | symbol _ _ | boolean _ _ | list _ _ => true
  | _ => false

mutual

theorem spelled_of_mem_nodes : (t : Code) → t.Spelled → ∀ u ∈ t.nodes, u.Spelled
  | .list pos ts, h, u, hu => by
    rcases List.mem_cons.1 hu with rfl | hu
    · exact h
    · exact spelled_of_mem_nodesAll ts h u hu
  | .marked pos m t, h, u, hu => by
    rcases List.mem_cons.1 hu with rfl | hu
    · exact h
    · exact spelled_of_mem_nodes t h u hu
  | .format pos ps, h, u, hu => by
    rcases List.mem_cons.1 hu with rfl | hu
    · exact h
    · exact spelled_of_mem_partNodes ps h.1 u hu
  | .number _ _, h, u, hu | .string _ _, h, u, hu | .symbol _ _, h, u, hu | .boolean _ _, h, u, hu | .nil _, h, u, hu
  | .embedded _ _, h, u, hu => List.mem_singleton.1 hu ▸ h

theorem spelled_of_mem_nodesAll : (ts : List Code) → SpelledAll ts → ∀ u ∈ nodesAll ts, u.Spelled
  | [], _, u, hu => by cases hu
  | t :: ts, h, u, hu => by
    rcases List.mem_append.1 hu with hu | hu
    · exact spelled_of_mem_nodes t h.1 u hu
    · exact spelled_of_mem_nodesAll ts h.2 u hu

theorem spelled_of_mem_partNodes {behindText : Bool} : (ps : List (Part Value)) → SpelledParts behindText ps →
    ∀ u ∈ Part.nodesAll ps, u.Spelled
  | [], _, u, hu => by cases hu
  | .text _ :: ps, h, u, hu => spelled_of_mem_partNodes ps h.2.2 u hu
  | .code t :: ps, h, u, hu => by
    rcases List.mem_append.1 hu with hu | hu
    · exact spelled_of_mem_nodes t h.1 u hu
    · exact spelled_of_mem_partNodes ps h.2 u hu

end

/-- A node that has a spelling is either bare or a shorthand. -/
theorem isBare_of_spelled {t : Code} (h : t.Spelled) : t.isBare = !t.isShorthand := by
  cases t with
  | embedded _ _ => exact h.elim
  | _ => rfl

theorem longhand_iff_bare {t : Code} (h : t.Spelled) : t.Longhand ↔ ∀ u ∈ t.nodes, u.isBare = true :=
  forall₂_congr fun u hu => by rw [isBare_of_spelled (spelled_of_mem_nodes t h u hu), Bool.not_eq_true']

mutual

/-- A term that is the same as its long spelling has no shorthand, as none is the same as the list that it stands for. -/
theorem longhand_of_same_spellOut : (t : Code) → t.same t.spellOut = true → t.Longhand
  | .list pos ts, h => List.forall_mem_cons.2 ⟨rfl, longhand_of_sameAll_spellOutAll ts h⟩
  | .nil _, h | .marked _ _ _, h | .format _ _, h => by cases h
  | .number _ _, _ | .string _ _, _ | .symbol _ _, _ | .boolean _ _, _ | .embedded _ _, _ =>
    List.forall_mem_singleton.2 rfl

theorem longhand_of_sameAll_spellOutAll : (ts : List Code) → sameAll ts (spellOutAll ts) = true →
    ∀ u ∈ nodesAll ts, u.isShorthand = false
  | [], _, u, hu => by cases hu
  | t :: ts, h, u, hu => by
    obtain ⟨ht, hts⟩ := Bool.and_eq_true_iff.1 h
    rcases List.mem_append.1 hu with hu | hu
    · exact longhand_of_same_spellOut t ht u hu
    · exact longhand_of_sameAll_spellOutAll ts hts u hu

end

/-- What was read is the same after the way into data and back just if it has no shorthand. -/
theorem same_toTerm_toValue {t : Code} (hs : t.Spelled) (hn : t.NaNFree) (pos : Position) :
    t.same (t.toValue.toTerm pos) = true ↔ t.Longhand := by
  have hback : (t.toValue.toTerm pos).seen .blind = t.spellOut.seen .blind :=
    (t.toValue.seen_toTerm_blind pos .nowhere).trans (seen_toTerm t hs)
  rw [same_congr rfl hback]
  refine ⟨longhand_of_same_spellOut t, fun h => ?_⟩
  rw [Longhand.spellOut_eq t h]
  exact same_refl t hn

end Term

/-- The way from data to code and back loses nothing. The way from code to data and back loses the shorthands: a form that
was read is the same afterwards just if all its nodes are bare, which is to say that no node of it is the word for the empty
list, a marked form or a format string. -/
theorem bridge_loses_shorthands :
    (∀ (v : Value) (pos : Position), v.SameData (v.toTerm pos).toValue) ∧
    ∀ (source : String) (ts : List Code), Reader.readSource source = .ok ts → ∀ t ∈ ts, ∀ pos : Position,
      (t.same (t.toValue.toTerm pos) = true ↔ ∀ u ∈ t.nodes, u.isBare = true) ∧
        ((∀ u ∈ t.nodes, u.isBare = true) ↔ ∀ u ∈ t.nodes, u.isShorthand = false) := by
  refine ⟨Value.sameData_toValue_toTerm, fun source ts h t ht pos => ?_⟩
  have hs := Reader.spelled_of_readSource h t ht
  have hbare := Term.longhand_iff_bare hs
  exact ⟨(Term.same_toTerm_toValue hs (Reader.nanFree_of_readSource h t ht) pos).trans hbare, hbare.symm⟩

/-- A call without shorthands. -/
def bareCall : Code :=
  .list ⟨1, 1⟩ [.symbol ⟨1, 2⟩ "f", .string ⟨1, 4⟩ "a", .list ⟨1, 8⟩ [.boolean ⟨1, 9⟩ true]]

/-- A call with the word for the empty list in its operand. -/
def nilCall : Code :=
  .list ⟨2, 1⟩ [.symbol ⟨2, 2⟩ "f", .list ⟨2, 4⟩ [.symbol ⟨2, 5⟩ "g", .nil ⟨2, 7⟩]]

theorem readSource_bareCall_nilCall :
    Reader.readSource "(f \"a\" (#t))\n(f (g nil))" = .ok [bareCall, nilCall] := by
  cbv

theorem bridge_loses_shorthands_nilCall :
    bareCall.same (bareCall.toValue.toTerm .nowhere) = true ∧ nilCall.same (nilCall.toValue.toTerm .nowhere) = false := by
  have h := bridge_loses_shorthands.2 _ _ readSource_bareCall_nilCall
  have hbare := h bareCall (by simp) .nowhere
  have hnil := h nilCall (by simp) .nowhere
  refine ⟨hbare.1.2 (by decide), Bool.eq_false_iff.2 fun hsame => ?_⟩
  exact absurd (hnil.1.1 hsame) (by decide)

end Lisplet
