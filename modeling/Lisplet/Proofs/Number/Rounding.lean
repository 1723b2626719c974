import Lisplet.Proofs.Number.Bits
import Lisplet.Number.Shortest
/-!
# Rounding to the nearest double

`Reads m q v` says that the rational `v` lies in the interval around `m * 2 ^ q` that belongs to this
double. The quotients of such numbers round to exactly this double (`ofRatio_eq`): the exponent found
for the quotient is `q`, or one less just below a power of two (`exponentFor_spec`), and the integer
next to the scaled quotient is the right one (`roundQuotient_eq`).
-/
namespace Lisplet.Number

/-- The rationals that belong to the double `m * 2 ^ q`. -/
def Reads (m : Nat) (q : Int) (v : ℚ) : Prop :=
  let i := Interval.of m q
  let unit : ℚ := 2 ^ (q - 2)
  if i.closed then i.low * unit ≤ v ∧ v ≤ i.high * unit
  else i.low * unit < v ∧ v < i.high * unit

theorem twoTo_div (k : Int) : ((twoTo k.toNat : ℕ) : ℚ) / (twoTo (-k).toNat : ℕ) = 2 ^ k := by
  obtain ⟨j, rfl | rfl⟩ := Int.eq_nat_or_neg k <;> simp [twoTo_eq]

theorem tenTo_div (k : Int) : ((tenTo k.toNat : ℕ) : ℚ) / (tenTo (-k).toNat : ℕ) = 10 ^ k := by
  obtain ⟨j, rfl | rfl⟩ := Int.eq_nat_or_neg k <;> simp [tenTo_eq]

/-! ## The nearest integer -/

/-- An integer that no other is nearer to, and that is even when another is as near. -/
theorem roundQuotient_eq {a b m : Nat} (hb : 0 < b) (hlow : 2 * (m * b) ≤ 2 * a + b)
    (hhigh : 2 * a ≤ 2 * (m * b) + b)
    (htie : m % 2 = 0 ∨ 2 * (m * b) < 2 * a + b ∧ 2 * a < 2 * (m * b) + b) : roundQuotient a b = m := by
  have hdiv := Nat.div_add_mod' a b
  have hmod := Nat.mod_lt a hb
  simp only [roundQuotient]
  generalize a / b = low at hdiv ⊢
  generalize a % b = r at hdiv hmod ⊢
  -- `m` is the quotient or the next integer; the remainder says which.
  have hge : low ≤ m := by
    by_contra h
    have := Nat.mul_le_mul_right b (show m + 1 ≤ low by omega)
    rw [Nat.add_mul] at this
    omega
  have hle : m ≤ low + 1 := by
    by_contra h
    have := Nat.mul_le_mul_right b (show low + 2 ≤ m by omega)
    rw [Nat.add_mul] at this
    omega
  obtain rfl | rfl : m = low ∨ m = low + 1 := by omega
  · rw [if_pos]
    simp only [Bool.or_eq_true, decide_eq_true_eq, Bool.and_eq_true, beq_iff_eq]
    omega
  · rw [Nat.add_mul] at hlow hhigh htie
    rw [if_neg]
    simp only [Bool.or_eq_true, decide_eq_true_eq, Bool.and_eq_true, beq_iff_eq]
    omega

theorem roundQuotient_of_near {a b m : Nat} (hb : 0 < b) (hlow : (m : ℚ) - 1 / 2 ≤ a / b)
    (hhigh : (a / b : ℚ) ≤ m + 1 / 2)
    (htie : m % 2 = 0 ∨ (m : ℚ) - 1 / 2 < a / b ∧ (a / b : ℚ) < m + 1 / 2) : roundQuotient a b = m := by
  have hbq : (0 : ℚ) < b := by exact_mod_cast hb
  have hle : (m : ℚ) - 1 / 2 ≤ a / b → 2 * (m * b) ≤ 2 * a + b := by
    intro h
    rw [le_div_iff₀ hbq] at h
    have : (2 * (m * b) : ℚ) ≤ 2 * a + b := by linarith
    exact_mod_cast this
  have hge : (a / b : ℚ) ≤ m + 1 / 2 → 2 * a ≤ 2 * (m * b) + b := by
    intro h
    rw [div_le_iff₀ hbq] at h
    have : (2 * a : ℚ) ≤ 2 * (m * b) + b := by linarith
    exact_mod_cast this
  refine roundQuotient_eq hb (hle hlow) (hge hhigh) (htie.imp_right fun ⟨h₁, h₂⟩ => ⟨?_, ?_⟩)
  · rw [lt_div_iff₀ hbq] at h₁
    have : (2 * (m * b) : ℚ) < 2 * a + b := by linarith
    exact_mod_cast this
  · rw [div_lt_iff₀ hbq] at h₂
    have : (2 * a : ℚ) < 2 * (m * b) + b := by linarith
    exact_mod_cast this

/-! ## The exponent of a quotient -/

/-- Scaling divides by a power of two. -/
theorem scaled_div (n d : Nat) (q : Int) :
    ((scaled n d q).1 / (scaled n d q).2 : ℚ) = n / d / 2 ^ q := by
  rw [← twoTo_div q]
  simp only [scaled]
  push_cast
  field_simp

theorem scaled_pos {d : Nat} (hd : 0 < d) (n : Nat) (q : Int) : 0 < (scaled n d q).2 :=
  Nat.mul_pos hd (Nat.two_pow_pos _)

theorem quotient_bounds {n d : Nat} (hn : 0 < n) (hd : 0 < d) :
    (2 ^ ((n.log2 : Int) - d.log2 - 1) : ℚ) < n / d ∧ (n / d : ℚ) < 2 ^ ((n.log2 : Int) - d.log2 + 1) := by
  have hn₁ : (2 ^ n.log2 : ℚ) ≤ n := by exact_mod_cast Nat.log2_self_le hn.ne'
  have hn₂ : (n : ℚ) < 2 ^ (n.log2 + 1) := by exact_mod_cast Nat.lt_log2_self
  have hd₁ : (2 ^ d.log2 : ℚ) ≤ d := by exact_mod_cast Nat.log2_self_le hd.ne'
  have hd₂ : (d : ℚ) < 2 ^ (d.log2 + 1) := by exact_mod_cast Nat.lt_log2_self
  have hdq : (0 : ℚ) < d := by exact_mod_cast hd
  constructor
  · rw [lt_div_iff₀ hdq]
    calc (2 ^ ((n.log2 : Int) - d.log2 - 1) : ℚ) * d
        < 2 ^ ((n.log2 : Int) - d.log2 - 1) * 2 ^ (d.log2 + 1) := by gcongr
      _ = 2 ^ n.log2 := by
        rw [← zpow_natCast, ← zpow_add₀ two_ne_zero, ← zpow_natCast]
        congr 1
        push_cast
        ring
      _ ≤ n := hn₁
  · rw [div_lt_iff₀ hdq]
    calc (n : ℚ) < 2 ^ (n.log2 + 1) := hn₂
      _ = 2 ^ ((n.log2 : Int) - d.log2 + 1) * 2 ^ d.log2 := by
        rw [← zpow_natCast, ← zpow_natCast, ← zpow_add₀ two_ne_zero]
        congr 1
        push_cast
        ring
      _ ≤ 2 ^ ((n.log2 : Int) - d.log2 + 1) * d := by gcongr

theorem div_lt_twoTo {a b k : Nat} (hb : 0 < b) : a / b < twoTo k ↔ (a / b : ℚ) < 2 ^ k := by
  have hbq : (0 : ℚ) < b := by exact_mod_cast hb
  rw [Nat.div_lt_iff_lt_mul hb, div_lt_iff₀ hbq, twoTo_eq]
  exact_mod_cast Iff.rfl

/-- The exponent of a quotient scales it to fifty-three bits, unless it would be too small. -/
theorem exponentFor_spec {n d : Nat} (hn : 0 < n) (hd : 0 < d) :
    ∃ e : Int, exponentFor n d = max minExponent e ∧
      (2 ^ (e + 52) : ℚ) ≤ n / d ∧ (n / d : ℚ) < 2 ^ (e + 53) := by
  obtain ⟨hlow, hhigh⟩ := quotient_bounds hn hd
  let g : Int := (n.log2 : Int) - d.log2 - 52
  have hlt : (scaled n d g).1 / (scaled n d g).2 < twoTo 52 ↔ (n / d : ℚ) < 2 ^ (g + 52) := by
    rw [div_lt_twoTo (scaled_pos hd n g), scaled_div, div_lt_iff₀ (by positivity), ← zpow_natCast,
      ← zpow_add₀ two_ne_zero, add_comm]
    rfl
  -- The logarithms leave two candidates; a division by the first tells which.
  by_cases h : (n / d : ℚ) < 2 ^ (g + 52)
  · refine ⟨g - 1, congrArg (max minExponent) (if_pos (hlt.2 h)), ?_, ?_⟩
    · rw [show g - 1 + 52 = (n.log2 : Int) - d.log2 - 1 by simp only [g]; ring]
      exact hlow.le
    · rw [show g - 1 + 53 = g + 52 by ring]
      exact h
  · refine ⟨g, congrArg (max minExponent) (if_neg fun hh => h (hlt.1 hh)), not_lt.1 h, ?_⟩
    rw [show g + 53 = (n.log2 : Int) - d.log2 + 1 by simp only [g]; ring]
    exact hhigh

/-! ## The nearest double -/

theorem low_le (m : Nat) (q : Int) : 4 * m ≤ (Interval.of m q).low + 2 := by
  simp only [Interval.of]
  split <;> omega

/-- In units of its own, a double lies within a half of what belongs to it, and nearer if it is odd. -/
theorem Reads.near {m : Nat} {q : Int} {v : ℚ} (h : Reads m q v) :
    (m : ℚ) - 1 / 2 ≤ v / 2 ^ q ∧ v / 2 ^ q ≤ m + 1 / 2 ∧
      (m % 2 = 0 ∨ (m : ℚ) - 1 / 2 < v / 2 ^ q ∧ v / 2 ^ q < m + 1 / 2) := by
  have hlow : (4 * m : ℚ) ≤ (Interval.of m q).low + 2 := by exact_mod_cast low_le m q
  have hhigh : ((Interval.of m q).high : ℚ) = 4 * m + 2 := by simp [Interval.of]
  have hq : (0 : ℚ) < 2 ^ q := by positivity
  have hunit : (2 ^ (q - 2) : ℚ) = 2 ^ q / 4 := by
    rw [zpow_sub₀ two_ne_zero]
    norm_num
  have hmul := mul_le_mul_of_nonneg_right hlow hq.le
  simp only [Reads, hunit, hhigh] at h
  rw [le_div_iff₀ hq, div_le_iff₀ hq, lt_div_iff₀ hq, div_lt_iff₀ hq]
  split at h
  case isTrue hclosed => exact ⟨by linarith [h.1], by linarith [h.2], .inl (by simpa [Interval.of] using hclosed)⟩
  case isFalse => exact ⟨by linarith [h.1], by linarith [h.2], .inr ⟨by linarith [h.1], by linarith [h.2]⟩⟩

/-- Below a power of two, what belongs to it lies within a quarter. -/
theorem Reads.near_power {q : Int} {v : ℚ} (hq : minExponent < q) (h : Reads (2 ^ 52) q v) :
    (2 ^ 52 : ℚ) - 1 / 4 ≤ v / 2 ^ q := by
  have hpos : (0 : ℚ) < 2 ^ q := by positivity
  have hunit : (2 ^ (q - 2) : ℚ) = 2 ^ q / 4 := by
    rw [zpow_sub₀ two_ne_zero]
    norm_num
  have hlow : (Interval.of (2 ^ 52) q).low = 4 * 2 ^ 52 - 1 := by simp [Interval.of, hq, twoTo_eq]
  have hclosed : (Interval.of (2 ^ 52) q).closed = true := by simp [Interval.of]
  simp only [Reads, hclosed, if_true, hunit, hlow] at h
  rw [le_div_iff₀ hpos]
  have h₁ := h.1
  norm_num at h₁ ⊢
  linarith

theorem ofRatio_of_round {n d m : Nat} {q : Int} (hc : Canonical m q) (hn : 0 < n)
    (h : roundQuotient (scaled n d (exponentFor n d)).1 (scaled n d (exponentFor n d)).2 +
      (exponentFor n d - minExponent).toNat * twoTo 52 = magnitudeBits m q) (negative : Bool) :
    ofRatio negative n d = ofMagnitude negative (magnitudeBits m q) := by
  rw [ofRatio, if_neg hn.ne']
  dsimp only
  rw [h, Nat.min_eq_left hc.bits_lt.le]

/-- What belongs to a double is not scaled by a larger power of two than the double is. -/
theorem exponent_le_of_near {m : Nat} {q e : Int} {v : ℚ} (hm : m < 2 ^ 53) (hhigh : v / 2 ^ q ≤ m + 1 / 2)
    (h : (2 ^ (e + 52) : ℚ) ≤ v) : e ≤ q := by
  have hpos : (0 : ℚ) < 2 ^ q := by positivity
  have hmlt : (m : ℚ) + 1 ≤ 2 ^ 53 := by exact_mod_cast hm
  have hm53 : (m : ℚ) + 1 / 2 < 2 ^ (53 : Int) := by
    rw [show (2 ^ (53 : Int) : ℚ) = 2 ^ 53 by norm_num]
    linarith
  have : (2 ^ (e + 52) : ℚ) < 2 ^ (q + 53) := by
    calc (2 ^ (e + 52) : ℚ) ≤ v := h
      _ ≤ (m + 1 / 2) * 2 ^ q := (div_le_iff₀ hpos).1 hhigh
      _ < 2 ^ (53 : Int) * 2 ^ q := by gcongr
      _ = 2 ^ (q + 53) := by rw [zpow_add₀ two_ne_zero, mul_comm]
  rw [zpow_lt_zpow_iff_right₀ one_lt_two] at this
  omega

/-- It is scaled by at least half the power, if the double has fifty-three bits. -/
theorem le_exponent_of_near {m : Nat} {q e : Int} {v : ℚ} (hm : 2 ^ 52 ≤ m) (hlow : (m : ℚ) - 1 / 2 ≤ v / 2 ^ q)
    (h : v < 2 ^ (e + 53)) : q - 1 ≤ e := by
  have hpos : (0 : ℚ) < 2 ^ q := by positivity
  have hmge : (2 ^ 52 : ℚ) ≤ m := by exact_mod_cast hm
  have hm51 : (2 ^ (51 : Int) : ℚ) < m - 1 / 2 := by
    rw [show (2 ^ (51 : Int) : ℚ) = 2 ^ 52 / 2 by norm_num]
    linarith
  have : (2 ^ (q + 51) : ℚ) < 2 ^ (e + 53) := by
    calc (2 ^ (q + 51) : ℚ) = 2 ^ (51 : Int) * 2 ^ q := by rw [zpow_add₀ two_ne_zero, mul_comm]
      _ < (m - 1 / 2) * 2 ^ q := by gcongr
      _ ≤ v := (le_div_iff₀ hpos).1 hlow
      _ < 2 ^ (e + 53) := h
  rw [zpow_lt_zpow_iff_right₀ one_lt_two] at this
  omega

/-- A quotient just below a power of two, whose exponent is one less, rounds up to the power. -/
theorem round_below_power {n d : Nat} {q : Int} (hd : 0 < d) (hq : minExponent < q) (hexp : exponentFor n d = q - 1)
    (h : Reads (2 ^ 52) q (n / d)) (hlt : (n / d : ℚ) / 2 ^ q < 2 ^ 52) :
    roundQuotient (scaled n d (exponentFor n d)).1 (scaled n d (exponentFor n d)).2 +
      (exponentFor n d - minExponent).toNat * twoTo 52 = magnitudeBits (2 ^ 52) q := by
  have hhalf : (n / d : ℚ) / 2 ^ (q - 1) = 2 * (n / d / 2 ^ q) := by
    rw [zpow_sub₀ two_ne_zero]
    field_simp
  have hpower := h.near_power hq
  rw [hexp, roundQuotient_of_near (scaled_pos hd n (q - 1)) (m := 2 ^ 53)]
  · simp only [magnitudeBits, minExponent, twoTo_eq] at hq ⊢
    omega
  all_goals rw [scaled_div, hhalf]
  · norm_num at hpower ⊢
    linarith
  · norm_num at hlt ⊢
    linarith
  · exact .inl (by norm_num)

/-- A quotient in the interval of a double rounds to this double. -/
theorem ofRatio_eq {m n d : Nat} {q : Int} (hc : Canonical m q) (hn : 0 < n) (hd : 0 < d)
    (h : Reads m q (n / d)) (negative : Bool) :
    ofRatio negative n d = ofMagnitude negative (magnitudeBits m q) := by
  obtain ⟨e, hexp, h52, h53⟩ := exponentFor_spec hn hd
  obtain ⟨hlow, hhigh, htie⟩ := h.near
  apply ofRatio_of_round hc hn
  by_cases hq : exponentFor n d = q
  · rw [hq, roundQuotient_of_near (scaled_pos hd n q) (m := m), magnitudeBits]
    all_goals rw [scaled_div]
    · exact hlow
    · exact hhigh
    · exact htie
  -- The exponent is not `q`, so the quotient lies below the power of two that the double is.
  have hle := exponent_le_of_near hc.lt hhigh h52
  have hleast : minExponent < q := by
    refine lt_of_le_of_ne hc.least ?_
    rintro rfl
    exact hq (hexp.trans (max_eq_left hle))
  have hm : 2 ^ 52 ≤ m := by
    rcases hc.norm with hm | rfl
    · exact hm
    · exact absurd hleast (lt_irrefl _)
  have hge := le_exponent_of_near hm hlow h53
  rw [max_eq_right (by omega)] at hexp
  obtain rfl : e = q - 1 := by omega
  have hlt : (n / d : ℚ) / 2 ^ q < 2 ^ 52 := by
    rw [div_lt_iff₀ (by positivity)]
    calc (n / d : ℚ) < 2 ^ (q - 1 + 53) := h53
      _ = 2 ^ (52 + q) := by congr 1; omega
      _ = 2 ^ 52 * 2 ^ q := by rw [zpow_add₀ two_ne_zero]; rfl
  obtain rfl : m = 2 ^ 52 := by
    apply le_antisymm _ hm
    have : (m : ℚ) < 2 ^ 52 + 1 := by linarith
    exact_mod_cast Nat.lt_succ_iff.1 (by exact_mod_cast this)
  exact round_below_power hd hleast hexp h hlt

end Lisplet.Number
