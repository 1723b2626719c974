import Mathlib
import Lisplet.Number.Double
/-!
# The bits of a finite double

A double that is neither infinite nor undefined comes back from its bits (`toBits_ofBits`). Its sign,
integer and exponent are `Canonical`, and fix its bits (`toNat_toBits`), so the double of these bits is
the same number (`equal_ofMagnitude`).
-/
namespace Lisplet.Number

theorem twoTo_eq (k : Nat) : twoTo k = 2 ^ k := rfl

theorem tenTo_eq (k : Nat) : tenTo k = 10 ^ k := rfl

/-- A double that is neither infinite nor undefined. -/
def IsFinite (x : Float) : Prop := ∃ negative m q, shape x = .finite negative m q

/-- The integers and exponents that doubles have. -/
structure Canonical (m : Nat) (q : Int) : Prop where
  lt : m < 2 ^ 53
  norm : 2 ^ 52 ≤ m ∨ q = -1074
  least : -1074 ≤ q
  most : q ≤ 971

/-- The bits of the size of `m * 2 ^ q`. -/
def magnitudeBits (m : Nat) (q : Int) : Nat := m + (q - minExponent).toNat * twoTo 52

theorem Canonical.bits_lt {m : Nat} {q : Int} (h : Canonical m q) : magnitudeBits m q < infinityBits := by
  have h₁ := h.lt
  have h₂ := h.most
  have h₃ := h.least
  have h₄ : (q - -1074).toNat ≤ 2045 := by omega
  simp only [magnitudeBits, infinityBits, minExponent, twoTo_eq]
  omega

/-! ## Doubles and their bits -/

open Float.Model in
/-- A finite double comes back from its bits. -/
theorem toBits_ofBits {b : UInt64} (h : b.toNat / 2 ^ 52 % 2 ^ 11 ≠ 2047) : (Float.ofBits b).toBits = b := by
  have he : @UnpackedFloat.unpackExponent .binary64 b.toBitVec ≠ -1#11 := by
    intro he
    apply h
    have := congrArg BitVec.toNat he
    simpa [UnpackedFloat.unpackExponent, BitVec.extractLsb, BitVec.extractLsb', Nat.shiftRight_eq_div_pow] using this
  have hnan : ¬ @UnpackedFloat.isNaNBits .binary64 b.toBitVec := fun hn => he (of_decide_eq_true hn).1
  have hpack := @UnpackedFloat.pack_unpack .binary64 b.toBitVec
  rw [if_neg hnan] at hpack
  exact congrArg UInt64.ofBitVec (hpack (by decide))

/-! ## Shapes -/

/-- The fields of a finite double. -/
theorem shape_eq_finite {x : Float} {negative : Bool} {m : Nat} {q : Int} (h : shape x = .finite negative m q) :
    x.toBits.toNat / 2 ^ 52 % 2 ^ 11 ≠ 2047 ∧ (negative = true ↔ x.toBits.toNat / 2 ^ 63 = 1) ∧
      (x.toBits.toNat / 2 ^ 52 % 2 ^ 11 = 0 ∧ m = x.toBits.toNat % 2 ^ 52 ∧ q = -1074 ∨
        x.toBits.toNat / 2 ^ 52 % 2 ^ 11 ≠ 0 ∧ m = 2 ^ 52 + x.toBits.toNat % 2 ^ 52 ∧
          q = (x.toBits.toNat / 2 ^ 52 % 2 ^ 11 : Nat) - 1075) := by
  simp only [shape] at h
  simp only [← twoTo_eq]
  generalize x.toBits.toNat / twoTo 52 % twoTo 11 = biased at h ⊢
  split at h
  case isTrue => split at h <;> cases h
  case isFalse hne =>
    split at h
    case isTrue hz =>
      obtain ⟨rfl, rfl, rfl⟩ := Shape.finite.inj h
      exact ⟨hne, beq_iff_eq, .inl ⟨hz, rfl, rfl⟩⟩
    case isFalse hz =>
      obtain ⟨rfl, rfl, rfl⟩ := Shape.finite.inj h
      exact ⟨hne, beq_iff_eq, .inr ⟨hz, rfl, rfl⟩⟩

theorem canonical_of_shape {x : Float} {negative : Bool} {m : Nat} {q : Int}
    (h : shape x = .finite negative m q) : Canonical m q := by
  obtain ⟨hne, -, ⟨hz, rfl, rfl⟩ | ⟨hz, rfl, rfl⟩⟩ := shape_eq_finite h
  · exact ⟨by omega, .inr rfl, le_rfl, by norm_num⟩
  · exact ⟨by omega, .inl (by omega), by omega, by omega⟩

/-- The sign, integer and exponent of a finite double fix its bits. -/
theorem toNat_toBits {x : Float} {negative : Bool} {m : Nat} {q : Int} (h : shape x = .finite negative m q) :
    x.toBits.toNat = if negative then magnitudeBits m q + twoTo 63 else magnitudeBits m q := by
  have hlt : x.toBits.toNat < 2 ^ 64 := x.toBits.toNat_lt
  obtain ⟨hne, hs, hfields⟩ := shape_eq_finite h
  have hsize : magnitudeBits m q = x.toBits.toNat % 2 ^ 63 := by
    rw [magnitudeBits, minExponent, twoTo_eq]
    omega
  rw [hsize, twoTo_eq]
  cases negative with
  | false =>
    have : x.toBits.toNat / 2 ^ 63 ≠ 1 := fun h => Bool.false_ne_true (hs.2 h)
    rw [if_neg (by simp)]
    omega
  | true =>
    have := hs.1 rfl
    rw [if_pos rfl]
    omega

/-- The double of the bits of `m * 2 ^ q` has this integer and exponent. -/
theorem toNat_toBits_ofMagnitude {m : Nat} {q : Int} (h : Canonical m q) (negative : Bool) :
    (ofMagnitude negative (magnitudeBits m q)).toBits.toNat =
      if negative then magnitudeBits m q + twoTo 63 else magnitudeBits m q := by
  have hlt := h.bits_lt
  simp only [infinityBits, twoTo_eq] at hlt
  have hbits : (UInt64.ofNat (if negative then magnitudeBits m q + twoTo 63 else magnitudeBits m q)).toNat =
      if negative then magnitudeBits m q + twoTo 63 else magnitudeBits m q := by
    rw [UInt64.toNat_ofNat']
    apply Nat.mod_eq_of_lt
    rw [twoTo_eq]
    split_ifs <;> omega
  rw [ofMagnitude, toBits_ofBits, hbits]
  rw [hbits, twoTo_eq]
  split_ifs <;> omega

theorem shape_ofMagnitude {m : Nat} {q : Int} (h : Canonical m q) (negative : Bool) :
    shape (ofMagnitude negative (magnitudeBits m q)) = .finite negative m q := by
  obtain ⟨hlt, hnorm, hleast, hmost⟩ := h
  have hbits := toNat_toBits_ofMagnitude ⟨hlt, hnorm, hleast, hmost⟩ negative
  simp only [shape]
  rw [hbits]
  have hsize : magnitudeBits m q = m + (q + 1074).toNat * 2 ^ 52 := by
    simp [magnitudeBits, minExponent, twoTo_eq]
  generalize magnitudeBits m q = bits at hsize ⊢
  have hsign : ((if negative then bits + twoTo 63 else bits) / twoTo 63 == 1) = negative := by
    rw [twoTo_eq]
    cases negative with
    | false => simp; omega
    | true => simp; omega
  have hfields : (if negative then bits + twoTo 63 else bits) / twoTo 52 % twoTo 11 = bits / 2 ^ 52 ∧
      (if negative then bits + twoTo 63 else bits) % twoTo 52 = bits % 2 ^ 52 := by
    simp only [twoTo_eq]
    split_ifs <;> omega
  rw [hsign, hfields.1, hfields.2, if_neg (by omega)]
  -- Without the implicit bit the exponent has to be the least one.
  by_cases hm : m < 2 ^ 52
  · obtain rfl : q = -1074 := by omega
    rw [if_pos (by omega), show bits % 2 ^ 52 = m by omega]
    rfl
  · rw [if_neg (by omega), twoTo_eq, show 2 ^ 52 + bits % 2 ^ 52 = m by omega,
      show Int.ofNat (bits / 2 ^ 52) - 1075 = q by simp; omega]

/-- A number equals the double of its own bits. -/
theorem equal_ofMagnitude {x : Float} {negative : Bool} {m : Nat} {q : Int} (h : shape x = .finite negative m q) :
    equal x (ofMagnitude negative (magnitudeBits m q)) = true := by
  have hbits : x.toBits = (ofMagnitude negative (magnitudeBits m q)).toBits := by
    rw [← UInt64.toNat_inj, toNat_toBits h, toNat_toBits_ofMagnitude (canonical_of_shape h)]
  simp [equal, isNaN, h, hbits]

end Lisplet.Number
