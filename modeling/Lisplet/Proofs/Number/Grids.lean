import Lisplet.Proofs.Number.Rounding
/-!
# The search for a short decimal

A point found on a decimal grid belongs to the double it was sought for (`gridPoint?_reads`), and a
grid that is finer than a quarter of the double's unit has one (`gridPoint?_isSome`). The twentieth
grid is that fine (`twentieth_grid`), so the search always ends with a decimal that belongs to the double
(`shortest_reads`).
-/
namespace Lisplet.Number

theorem gridFactors_div (q k : Int) :
    ((gridFactors q k).1 / (gridFactors q k).2 : ℚ) = 10 ^ k / 2 ^ (q - 2) := by
  rw [← tenTo_div k, ← twoTo_div (q - 2)]
  simp only [gridFactors, neg_sub]
  push_cast
  field_simp

theorem gridFactors_pos (q k : Int) : 0 < (gridFactors q k).1 ∧ 0 < (gridFactors q k).2 := by
  simp [gridFactors, twoTo_eq, tenTo_eq]

/-- The units of a grid and of a double are whole multiples of a common one. -/
theorem common_unit (q k : Int) : ∃ s : ℚ, 0 < s ∧ (10 ^ k : ℚ) = (gridFactors q k).1 * s ∧
    (2 ^ (q - 2) : ℚ) = (gridFactors q k).2 * s := by
  obtain ⟨-, hf⟩ := gridFactors_pos q k
  have hfq : (0 : ℚ) < (gridFactors q k).2 := by exact_mod_cast hf
  have hu : (0 : ℚ) < 2 ^ (q - 2) := by positivity
  refine ⟨2 ^ (q - 2) / (gridFactors q k).2, by positivity, ?_, ?_⟩
  · rw [mul_div_left_comm, gridFactors_div, mul_div_cancel₀ _ hu.ne']
  · rw [mul_div_cancel₀ _ hfq.ne']

/-- A point in the scaled interval belongs to the double. -/
theorem reads_of_holds {m c : Nat} {q k : Int}
    (h : (Interval.of m q).holds (gridFactors q k).2 (c * (gridFactors q k).1) = true) :
    Reads m q (c * 10 ^ k) := by
  obtain ⟨s, hs, hten, htwo⟩ := common_unit q k
  have le {a b x y : Nat} (hab : a * x ≤ b * y) : (a * (x * s) : ℚ) ≤ b * (y * s) := by
    rw [← mul_assoc, ← mul_assoc]
    exact mul_le_mul_of_nonneg_right (by exact_mod_cast hab) hs.le
  have lt {a b x y : Nat} (hab : a * x < b * y) : (a * (x * s) : ℚ) < b * (y * s) := by
    rw [← mul_assoc, ← mul_assoc]
    exact mul_lt_mul_of_pos_right (by exact_mod_cast hab) hs
  simp only [Reads, Interval.holds, hten, htwo] at h ⊢
  split at h
  case isTrue hclosed =>
    simp only [Bool.and_eq_true, decide_eq_true_eq] at h
    rw [if_pos hclosed]
    exact ⟨le h.1, le h.2⟩
  case isFalse hopen =>
    simp only [Bool.and_eq_true, decide_eq_true_eq] at h
    rw [if_neg hopen]
    exact ⟨lt h.1, lt h.2⟩

/-- A point found on a grid belongs to the double. -/
theorem gridPoint?_reads {m c : Nat} {q k : Int} (h : gridPoint? m q k = some c) : Reads m q (c * 10 ^ k) := by
  simp only [gridPoint?] at h
  split at h
  case isTrue hboth =>
    obtain ⟨hbelow, habove⟩ := Bool.and_eq_true_iff.1 hboth
    split at h
    · obtain rfl := Option.some.inj h
      exact reads_of_holds hbelow
    · obtain rfl := Option.some.inj h
      exact reads_of_holds habove
  case isFalse =>
    split at h
    case isTrue hbelow =>
      obtain rfl := Option.some.inj h
      exact reads_of_holds hbelow
    case isFalse =>
      split at h
      case isTrue habove =>
        obtain rfl := Option.some.inj h
        exact reads_of_holds habove
      case isFalse => cases h

/-- A grid as fine as a quarter of the double's unit has a point. -/
theorem gridPoint?_isSome {m : Nat} {q k : Int} (hm : 0 < m) (h : (10 ^ k : ℚ) ≤ 2 ^ (q - 2)) :
    (gridPoint? m q k).isSome := by
  obtain ⟨s, hs, hten, htwo⟩ := common_unit q k
  have hpf : (gridFactors q k).1 ≤ (gridFactors q k).2 := by
    rw [hten, htwo] at h
    exact_mod_cast le_of_mul_le_mul_right h hs
  obtain ⟨hp, -⟩ := gridFactors_pos q k
  -- The point just below the double is less than one step away, and the interval is at least that wide.
  have hbelow : (Interval.of m q).holds (gridFactors q k).2
      ((Interval.of m q).value * (gridFactors q k).2 / (gridFactors q k).1 * (gridFactors q k).1) = true := by
    rw [show (Interval.of m q).value = 4 * m from rfl]
    generalize (gridFactors q k).1 = p at *
    generalize (gridFactors q k).2 = f at *
    have hdiv := Nat.div_add_mod' (4 * m * f) p
    have hmod := Nat.mod_lt (4 * m * f) hp
    have hlow : (Interval.of m q).low * f + f ≤ 4 * m * f := by
      rw [← Nat.succ_mul]
      refine Nat.mul_le_mul_right f ?_
      simp only [Interval.of]
      split <;> omega
    have hhigh : (Interval.of m q).high * f = 4 * m * f + 2 * f := by
      simp only [Interval.of]
      ring
    unfold Interval.holds
    split <;> simp only [Bool.and_eq_true, decide_eq_true_eq] <;> omega
  simp only [gridPoint?, hbelow]
  split <;> rfl

theorem searchGrids_eq {m : Nat} {q : Int} (n : Nat) (k : Int) (h : (gridPoint? m q (k - n)).isSome) :
    ∃ c, ∃ j ≤ n, searchGrids m q (n + 1) k = ⟨c, k - j⟩ ∧ gridPoint? m q (k - j) = some c := by
  induction n generalizing k with
  | zero =>
    obtain ⟨c, hc⟩ := Option.isSome_iff_exists.1 h
    simp only [Nat.cast_zero, sub_zero] at hc
    exact ⟨c, 0, le_rfl, by simp [searchGrids, hc], by simpa using hc⟩
  | succ n ih =>
    rw [searchGrids]
    cases hc : gridPoint? m q k with
    | some c => exact ⟨c, 0, Nat.zero_le _, by simp, by simpa using hc⟩
    | none =>
      have he : k - ((n + 1 : Nat) : Int) = k - 1 - n := by push_cast; ring
      obtain ⟨c, j, hj, hs, hg⟩ := ih (k - 1) (he ▸ h)
      have hj' : k - 1 - (j : Int) = k - ((j + 1 : Nat) : Int) := by push_cast; ring
      rw [hj'] at hs hg
      exact ⟨c, j + 1, by omega, hs, hg⟩

/-! ## Twenty grids -/

theorem ten_pow_le {a : Nat} {b : Int} (h : 10 * (a : Int) ≤ 3 * b) : (10 ^ a : ℚ) ≤ 2 ^ b := by
  obtain ⟨b, rfl⟩ := Int.eq_ofNat_of_zero_le (show 0 ≤ b by omega)
  have hpow : (10 ^ a) ^ 3 ≤ (2 ^ b) ^ 3 := by
    calc (10 ^ a) ^ 3 = (10 ^ 3) ^ a := by rw [← pow_mul, ← pow_mul, mul_comm]
      _ ≤ (2 ^ 10) ^ a := Nat.pow_le_pow_left (by norm_num) a
      _ = 2 ^ (10 * a) := by rw [← pow_mul]
      _ ≤ 2 ^ (3 * b) := Nat.pow_le_pow_right (by norm_num) (by omega)
      _ = (2 ^ b) ^ 3 := by rw [mul_comm, pow_mul]
  rw [zpow_natCast]
  exact_mod_cast (Nat.pow_le_pow_iff_left (by norm_num)).1 hpow

theorem two_pow_le {a b : Nat} (h : 25 * b ≤ 83 * a) : (2 ^ b : ℚ) ≤ 10 ^ a := by
  have hpow : (2 ^ b) ^ 25 ≤ (10 ^ a) ^ 25 := by
    calc (2 ^ b) ^ 25 = 2 ^ (25 * b) := by rw [← pow_mul, mul_comm]
      _ ≤ 2 ^ (83 * a) := Nat.pow_le_pow_right (by norm_num) h
      _ = (2 ^ 83) ^ a := by rw [pow_mul]
      _ ≤ (10 ^ 25) ^ a := Nat.pow_le_pow_left (by norm_num) a
      _ = (10 ^ a) ^ 25 := by rw [← pow_mul, ← pow_mul, mul_comm]
  exact_mod_cast (Nat.pow_le_pow_iff_left (by norm_num)).1 hpow

theorem log2_le_of_canonical {m : Nat} {q : Int} (h : Canonical m q) : m.log2 ≤ 52 := by
  by_cases hm : m = 0
  · simp [hm]
  · have := (Nat.log2_lt hm).2 h.lt
    omega

/-- The twentieth grid is as fine as a quarter of the unit. -/
theorem twentieth_grid {m : Nat} {q : Int} (h : Canonical m q) :
    (10 ^ (decimalBound m q - 19) : ℚ) ≤ 2 ^ (q - 2) := by
  have hlog := log2_le_of_canonical h
  have hleast := h.least
  have hmost := h.most
  have hbound : decimalBound m q ≤ (53 + q) * 30103 / 100000 + 1 := by
    simp only [decimalBound, Int.ofNat_eq_natCast]
    omega
  obtain ⟨a, ha⟩ | ⟨a, ha⟩ : (∃ a : Nat, decimalBound m q - 19 = a) ∨ ∃ a : Nat, decimalBound m q - 19 = -a := by
    rcases Int.eq_nat_or_neg (decimalBound m q - 19) with ⟨a, ha | ha⟩
    · exact .inl ⟨a, ha⟩
    · exact .inr ⟨a, ha⟩
  · rw [ha, zpow_natCast]
    exact ten_pow_le (by omega)
  · rw [ha, zpow_neg, zpow_natCast]
    by_cases hq : 0 ≤ q - 2
    · calc ((10 ^ a)⁻¹ : ℚ) ≤ 1 := inv_le_one_of_one_le₀ (one_le_pow₀ (by norm_num))
        _ ≤ 2 ^ (q - 2) := one_le_zpow₀ (by norm_num) hq
    · obtain ⟨b, hb⟩ : ∃ b : Nat, q - 2 = -b := ⟨(2 - q).toNat, by omega⟩
      rw [hb, zpow_neg, zpow_natCast]
      exact inv_anti₀ (by positivity) (two_pow_le (by omega))

/-- The shortest decimal of a double belongs to it, and its exponent is in reach. -/
theorem shortest_reads {m : Nat} {q : Int} (h : Canonical m q) (hm : 0 < m) :
    Reads m q ((shortest m q).digits * 10 ^ (shortest m q).exponent) ∧
      -342 ≤ (shortest m q).exponent ∧ (shortest m q).exponent ≤ 310 := by
  have hlog := log2_le_of_canonical h
  have hleast := h.least
  have hmost := h.most
  obtain ⟨c, j, hj, hs, hg⟩ := searchGrids_eq 19 (decimalBound m q) (gridPoint?_isSome hm (twentieth_grid h))
  rw [shortest, hs]
  refine ⟨gridPoint?_reads hg, ?_⟩
  simp only [decimalBound, Int.ofNat_eq_natCast]
  omega

theorem Reads.pos {m : Nat} {q : Int} {v : ℚ} (hm : 0 < m) (h : Reads m q v) : 0 < v := by
  have hmq : (1 : ℚ) ≤ m := by exact_mod_cast hm
  have hv : 0 < v / 2 ^ q := by linarith [h.near.1]
  exact (div_pos_iff_of_pos_right (by positivity)).1 hv

end Lisplet.Number
