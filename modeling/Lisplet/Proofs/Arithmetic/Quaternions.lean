import Mathlib.Algebra.Quaternion
import Lisplet.Quaternion
/-!
# Quaternions are a division algebra

Over a field with an order, a quaternion stands for the one of Mathlib with the same four parts (`hamilton`), and nothing else
does (`hamilton_injective`). Sum, difference and product, the squared norm and the inverse of the two are the same, down to
every sign (`hamilton_mul`, `hamilton_inverse`). So the laws of Mathlib's quaternions are laws of these (`laws`).
-/
section

open scoped Quaternion

namespace Lisplet.Quaternion

/-! ## The same four parts -/

section Ring

variable {K : Type} [CommRing K]

/-- The quaternion of Mathlib with the same four parts. -/
def hamilton (q : Quaternion K) : ℍ[K] := ⟨q.a, q.b, q.c, q.d⟩

@[simp] theorem re_hamilton (q : Quaternion K) : q.hamilton.re = q.a := rfl

@[simp] theorem imI_hamilton (q : Quaternion K) : q.hamilton.imI = q.b := rfl

@[simp] theorem imJ_hamilton (q : Quaternion K) : q.hamilton.imJ = q.c := rfl

@[simp] theorem imK_hamilton (q : Quaternion K) : q.hamilton.imK = q.d := rfl

/-- The four parts of a quaternion determine it. -/
theorem hamilton_injective : Function.Injective (hamilton : Quaternion K → ℍ[K]) := by
  rintro ⟨a, b, c, d⟩ ⟨a', b', c', d'⟩ h
  obtain ⟨rfl, rfl, rfl, rfl⟩ := by simpa [hamilton] using h
  rfl

@[simp] theorem hamilton_ofReal (x : K) : (ofReal x).hamilton = (x : ℍ[K]) := rfl

@[simp] theorem hamilton_add (p q : Quaternion K) : (p.add q).hamilton = p.hamilton + q.hamilton := rfl

@[simp] theorem hamilton_sub (p q : Quaternion K) : (p.sub q).hamilton = p.hamilton - q.hamilton := rfl

/-- The product is the one of Hamilton, written out part by part. -/
@[simp] theorem hamilton_mul (p q : Quaternion K) : (p.mul q).hamilton = p.hamilton * q.hamilton := by
  ext <;> simp [mul]

/-- The squared norm is the sum of the four squares. -/
theorem normSq_hamilton (q : Quaternion K) : Quaternion.normSq q.hamilton = q.normSquared := by
  simp [Quaternion.normSq_def', normSquared, sq]

end Ring

section Field

variable {K : Type} [Field K]

/-- The inverse is the conjugate divided by the squared norm; zero is its own inverse on both sides. -/
@[simp] theorem hamilton_inverse (q : Quaternion K) : q.inverse.hamilton = q.hamilton⁻¹ := by
  rw [Quaternion.inv_def, normSq_hamilton]
  ext <;> simp [inverse, div_eq_inv_mul]

variable [LinearOrder K] [IsStrictOrderedRing K]

/-- Division multiplies by the inverse from the right. -/
@[simp] theorem hamilton_div (p q : Quaternion K) : (p.div q).hamilton = p.hamilton / q.hamilton := by
  rw [div, hamilton_mul, hamilton_inverse, div_eq_mul_inv]

theorem hamilton_ne_zero {q : Quaternion K} (h : q ≠ ofReal 0) : q.hamilton ≠ 0 := by
  intro hzero
  exact h (hamilton_injective (by simpa using hzero))

end Field

/-! ## The laws -/

/-- What makes quaternions over a field a division algebra with a multiplicative norm. -/
structure Laws (K : Type) [Field K] : Prop where
  mul_assoc : ∀ p q r : Quaternion K, (p.mul q).mul r = p.mul (q.mul r)
  mul_add : ∀ p q r : Quaternion K, p.mul (q.add r) = (p.mul q).add (p.mul r)
  add_mul : ∀ p q r : Quaternion K, (p.add q).mul r = (p.mul r).add (q.mul r)
  normSquared_mul : ∀ p q : Quaternion K, (p.mul q).normSquared = p.normSquared * q.normSquared
  mul_inverse : ∀ q : Quaternion K, q ≠ ofReal 0 → q.mul q.inverse = ofReal 1
  inverse_mul : ∀ q : Quaternion K, q ≠ ofReal 0 → q.inverse.mul q = ofReal 1
  mul_div : ∀ p q : Quaternion K, q ≠ ofReal 0 → (p.mul q).div q = p

/-- All laws are those of the quaternions over the field, brought back along the map to them. -/
theorem laws {K : Type} [Field K] [LinearOrder K] [IsStrictOrderedRing K] : Laws K where
  mul_assoc p q r := hamilton_injective (by simp [mul_assoc])
  mul_add p q r := hamilton_injective (by simp [mul_add])
  add_mul p q r := hamilton_injective (by simp [add_mul])
  normSquared_mul p q := by rw [← normSq_hamilton, hamilton_mul, map_mul, normSq_hamilton, normSq_hamilton]
  mul_inverse q hq := hamilton_injective (by simp [mul_inv_cancel₀ (hamilton_ne_zero hq)])
  inverse_mul q hq := hamilton_injective (by simp [inv_mul_cancel₀ (hamilton_ne_zero hq)])
  mul_div p q hq := hamilton_injective (by simp [mul_div_cancel_right₀ _ (hamilton_ne_zero hq)])

end Lisplet.Quaternion

end
