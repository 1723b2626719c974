import Lisplet.Proofs.Number.Grids
import Lisplet.Text.Words
import Lisplet.Number.Numeral
/-!
# A written number reads back

The brief layout of a double is a numeral (`isNumeral_brief`), and reading it gives an equal number
(`equal_ofText_brief`): its digits denote the shortest decimal of the double, which belongs to the
double, and what belongs to a double rounds to it. Whatever a numeral denotes is a number, which may be infinite
(`isNaN_ofText_of_isNumeral`).
-/
namespace Lisplet.Number

/-! ## Digits -/

theorem readDigits_digitsOf (n : Nat) : readDigits (digitsOf n) = n := Nat.ofDigitChars_ten_toDigits

theorem all_isDigit_digitsOf (n : Nat) : ∀ c ∈ digitsOf n, c.isDigit :=
  fun _ hc => Nat.isDigit_of_mem_toDigits (by norm_num) le_rfl hc

theorem digitsOf_ne_nil (n : Nat) : digitsOf n ≠ [] := Nat.toDigits_ne_nil

theorem readDigits_append (s t : List Char) :
    readDigits (s ++ t) = t.foldl (fun n c => 10 * n + (c.toNat - 48)) (readDigits s) := List.foldl_append

theorem readDigits_zeros_append (k : Nat) (s : List Char) :
    readDigits (List.replicate k '0' ++ s) = readDigits s := by
  induction k with
  | zero => rfl
  | succ k ih => exact ih

theorem readDigits_append_zeros (s : List Char) (k : Nat) :
    readDigits (s ++ List.replicate k '0') = readDigits s * 10 ^ k := by
  induction k with
  | zero => simp
  | succ k ih =>
    rw [List.replicate_succ', ← List.append_assoc, readDigits_append, ih]
    simp
    ring

/-! ## Numerals -/

/-- The digits of a numeral behind its point, with the point. -/
def pointed (fraction : List Char) : List Char := if fraction = [] then [] else '.' :: fraction

theorem splitSign_signed {body : List Char} {c : Char} (h : body.head? = some c) (hc : c.isDigit) (negative : Bool) :
    splitSign (signed negative body) = (negative, body) := by
  obtain ⟨more, rfl⟩ : ∃ more, body = c :: more := by
    cases body with
    | nil => cases h
    | cons d more => exact ⟨more, by rw [Option.some.inj h]⟩
  cases negative with
  | true => rfl
  | false =>
    have h₁ : c ≠ '-' := by rintro rfl; exact absurd hc (by decide)
    have h₂ : c ≠ '+' := by rintro rfl; exact absurd hc (by decide)
    simp only [signed, splitSign]
    split
    next heq => exact absurd (List.cons.inj heq).1 h₁
    next heq => exact absurd (List.cons.inj heq).1 h₂
    next => rfl

theorem splitDigits_append {ds rest : List Char} (hd : ∀ c ∈ ds, c.isDigit)
    (hr : ∀ c, rest.head? = some c → c.isDigit = false) : splitDigits (ds ++ rest) = (ds, rest) := by
  obtain ⟨ht, hdrop⟩ := Text.takeWhile_run hd hr
  rw [splitDigits, ht, hdrop]

theorem head?_of_exponent? {ex : List Char} {e : Int} (h : exponent? ex = some e) :
    ∀ c, ex.head? = some c → c = 'e' ∨ c = 'E' := by
  cases ex with
  | nil => simp
  | cons d ex =>
    rintro c ⟨rfl⟩
    rw [exponent?, Option.ite_none_right_eq_some] at h
    exact h.1

/-- A numeral written with its parts in order is read as these parts. -/
theorem parse?_signed {whole fraction ex : List Char} {e : Int} (hne : whole ≠ []) (hw : ∀ c ∈ whole, c.isDigit)
    (hf : ∀ c ∈ fraction, c.isDigit) (he : exponent? ex = some e) (negative : Bool) :
    Numeral.parse? (signed negative (whole ++ pointed fraction ++ ex)) = some ⟨negative, whole, fraction, e⟩ := by
  obtain ⟨c, more, rfl⟩ := List.exists_cons_of_ne_nil hne
  have hhead : (c :: more ++ pointed fraction ++ ex).head? = some c := rfl
  have hsign := splitSign_signed hhead (hw c (by simp)) negative
  -- What follows the digits is no digit, so each run of digits ends where it was written to end.
  have hex : ∀ c, ex.head? = some c → c.isDigit = false := by
    intro d hd
    rcases head?_of_exponent? he d hd with rfl | rfl <;> rfl
  have hdigits : splitDigits (c :: more ++ pointed fraction ++ ex) = (c :: more, pointed fraction ++ ex) := by
    rw [List.append_assoc]
    refine splitDigits_append hw ?_
    intro d hd
    unfold pointed at hd
    split at hd
    · exact hex d hd
    · obtain rfl : '.' = d := by simpa using hd
      rfl
  simp only [Numeral.parse?, hsign, hdigits]
  by_cases hnil : fraction = []
  · subst hnil
    rw [show pointed [] ++ ex = ex from rfl]
    cases ex with
    | nil => simp [he]
    | cons d ex =>
      rcases head?_of_exponent? he d rfl with rfl | rfl
      · simp [he]
      · simp [he]
  · rw [show pointed fraction ++ ex = '.' :: (fraction ++ ex) by simp [pointed, hnil]]
    simp [splitDigits_append hf hex, he]

/-! ## The layout of a decimal -/

theorem exponent?_marked (power : Int) :
    exponent? ('e' :: (if power < 0 then '-' else '+') :: digitsOf power.natAbs) = some power := by
  have hall : (digitsOf power.natAbs).all Char.isDigit = true := List.all_eq_true.2 (all_isDigit_digitsOf _)
  have hne : (digitsOf power.natAbs).isEmpty = false := by simpa using digitsOf_ne_nil power.natAbs
  by_cases hneg : power < 0
  · simp [exponent?, hneg, splitSign, hall, hne, readDigits_digitsOf, abs_of_neg]
  · simp [exponent?, hneg, splitSign, hall, hne, readDigits_digitsOf, abs_of_nonneg (not_lt.1 hneg)]

/-- A text whose parts denote a number, written in order and not too far from the point. -/
def Denotes (text : List Char) (v : ℚ) : Prop :=
  ∃ whole fraction ex e, text = whole ++ pointed fraction ++ ex ∧ whole ≠ [] ∧ (∀ d ∈ whole, d.isDigit) ∧
    (∀ d ∈ fraction, d.isDigit) ∧ exponent? ex = some e ∧
    (readDigits (whole ++ fraction) * 10 ^ (e - fraction.length) : ℚ) = v ∧
    e - fraction.length ≤ 400 ∧ -400 ≤ (whole ++ fraction).length + (e - fraction.length)

theorem isDigit_replicate_zero {k : Nat} : ∀ d ∈ List.replicate k '0', d.isDigit := by
  intro d hd
  rw [List.eq_of_mem_replicate hd]
  rfl

/-- All digits stand before the point, with zeros behind them. -/
theorem denotes_padded {digits : List Char} (hne : digits ≠ []) (hdigit : ∀ d ∈ digits, d.isDigit) (zeros : Nat) :
    Denotes (digits ++ List.replicate zeros '0') (readDigits digits * 10 ^ (zeros : Int)) := by
  refine ⟨digits ++ List.replicate zeros '0', [], [], 0, ?_, by simp [hne], ?_, by simp, rfl, ?_, by simp, ?_⟩
  · simp [pointed]
  · exact List.forall_mem_append.2 ⟨hdigit, isDigit_replicate_zero⟩
  · rw [List.append_nil, readDigits_append_zeros]
    simp
  · simp
    omega

/-- The point stands among the digits. -/
theorem denotes_cut {digits : List Char} (hdigit : ∀ d ∈ digits, d.isDigit) (point : Nat) (hpos : 0 < point)
    (hlt : point < digits.length) :
    Denotes (digits.take point ++ '.' :: digits.drop point) (readDigits digits * 10 ^ (point - digits.length : Int)) := by
  have hdrop : digits.drop point ≠ [] := by simpa using hlt
  have htake : digits.take point ≠ [] := by
    rw [ne_eq, List.take_eq_nil_iff, not_or]
    exact ⟨hpos.ne', List.ne_nil_of_length_pos (by omega)⟩
  refine ⟨digits.take point, digits.drop point, [], 0, ?_, htake, fun d hd => hdigit d (List.mem_of_mem_take hd),
    fun d hd => hdigit d (List.mem_of_mem_drop hd), rfl, ?_, ?_, ?_⟩
  · simp [pointed, hdrop]
  · rw [List.take_append_drop]
    congr 2
    simp
    omega
  · simp
  · rw [List.take_append_drop]
    simp
    omega

/-- All digits stand behind the point, with zeros in front of them. -/
theorem denotes_behind {digits : List Char} (hne : digits ≠ []) (hdigit : ∀ d ∈ digits, d.isDigit) (zeros : Nat) :
    Denotes ('0' :: '.' :: (List.replicate zeros '0' ++ digits))
      (readDigits digits * 10 ^ (-(zeros + digits.length) : Int)) := by
  refine ⟨['0'], List.replicate zeros '0' ++ digits, [], 0, ?_, by simp, by simp,
    List.forall_mem_append.2 ⟨isDigit_replicate_zero, hdigit⟩, rfl, ?_, ?_, ?_⟩
  · simp [pointed, hne]
  · have hzeros : ['0'] ++ List.replicate zeros '0' = List.replicate (zeros + 1) '0' := rfl
    rw [← List.append_assoc, hzeros, readDigits_zeros_append]
    congr 2
    simp
  · simp
    omega
  · simp
    omega

/-- A decimal is laid out as a text that denotes it. -/
theorem denotes_layout {digits : List Char} {k : Int} (hne : digits ≠ []) (hdigit : ∀ d ∈ digits, d.isDigit)
    (hlow : -342 ≤ k) (hhigh : k ≤ 310) :
    Denotes (layout digits (digits.length + k)) (readDigits digits * 10 ^ k) := by
  have hlen : 0 < digits.length := List.length_pos_of_ne_nil hne
  -- The layouts differ in where the point stands: behind all digits, among them, in front of them, or too far away.
  unfold layout
  by_cases hfew : (digits.length : Int) ≤ digits.length + k ∧ digits.length + k ≤ 21
  · rw [if_pos hfew]
    convert denotes_padded hne hdigit ((digits.length + k).toNat - digits.length) using 3
    omega
  rw [if_neg hfew]
  by_cases hpoint : 0 < digits.length + k ∧ digits.length + k ≤ 21
  · rw [if_pos hpoint]
    convert denotes_cut hdigit (digits.length + k).toNat (by omega) (by omega) using 3
    omega
  rw [if_neg hpoint]
  by_cases hzeros : -6 < digits.length + k ∧ digits.length + k ≤ 0
  · rw [if_pos hzeros]
    convert denotes_behind hne hdigit (-(digits.length + k)).toNat using 3
    omega
  · -- One digit stands before the point, and an exponent moves it.
    rw [if_neg hzeros]
    have htake : digits.take 1 ≠ [] := by simp [hne]
    refine ⟨digits.take 1, digits.drop 1, _, (digits.length + k : Int) - 1, ?_, htake,
      fun d hd => hdigit d (List.mem_of_mem_take hd), fun d hd => hdigit d (List.mem_of_mem_drop hd),
      exponent?_marked _, ?_, ?_, ?_⟩
    · have hpt : (if digits.length ≤ 1 then [] else '.' :: digits.drop 1) = pointed (digits.drop 1) := by
        simp only [pointed, List.drop_eq_nil_iff]
      rw [hpt]
    · rw [List.take_append_drop]
      congr 2
      simp
      omega
    · simp
      omega
    · rw [List.take_append_drop]
      simp
      omega

/-! ## Reading a written number -/

/-- A text that denotes what belongs to a double reads as the double. -/
theorem toFloat_of_denotes {m : Nat} {q : Int} (hc : Canonical m q) (hm : 0 < m) {text : List Char} {v : ℚ}
    (hd : Denotes text v) (hv : Reads m q v) (negative : Bool) :
    ∃ n, Numeral.parse? (signed negative text) = some n ∧
      n.toFloat = ofMagnitude negative (magnitudeBits m q) := by
  obtain ⟨whole, fraction, ex, e, rfl, hne, hw, hf, he, hval, hle, hge⟩ := hd
  refine ⟨_, parse?_signed hne hw hf he negative, ?_⟩
  have hpos : (0 : ℚ) < readDigits (whole ++ fraction) * 10 ^ (e - fraction.length) := hval ▸ hv.pos hm
  have hn : 0 < readDigits (whole ++ fraction) := by
    have := pos_of_mul_pos_left hpos (by positivity)
    exact_mod_cast this
  simp only [Numeral.toFloat, ofDecimal]
  rw [if_neg hn.ne', if_neg (by omega), if_neg (by omega)]
  refine ofRatio_eq hc (Nat.mul_pos hn (by simp [tenTo_eq])) (by simp [tenTo_eq]) ?_ negative
  have hratio : ((readDigits (whole ++ fraction) * tenTo (e - fraction.length).toNat : ℕ) : ℚ) /
      (tenTo (-(e - fraction.length)).toNat : ℕ) = v := by
    rw [← hval, ← tenTo_div (e - fraction.length)]
    push_cast
    rw [mul_div_assoc]
  rw [hratio]
  exact hv

theorem denotes_magnitudeText {m : Nat} {q : Int} (hc : Canonical m q) (hm : 0 < m) :
    ∃ v, Denotes (magnitudeText m q) v ∧ Reads m q v := by
  obtain ⟨hreads, hlow, hhigh⟩ := shortest_reads hc hm
  have hd := denotes_layout (digitsOf_ne_nil (shortest m q).digits) (all_isDigit_digitsOf _) hlow hhigh
  rw [readDigits_digitsOf] at hd
  refine ⟨_, ?_, hreads⟩
  rw [magnitudeText, if_neg hm.ne']
  exact hd

/-- A text that denotes what belongs to a double is, with the sign of the double, a numeral of an equal number. -/
theorem parse?_of_denotes {x : Float} {negative : Bool} {m : Nat} {q : Int} (hx : shape x = .finite negative m q)
    (hm : 0 < m) {text : List Char} (h : ∃ v, Denotes text v ∧ Reads m q v) :
    ∃ n, Numeral.parse? (signed negative text) = some n ∧ equal x n.toFloat = true := by
  obtain ⟨v, hd, hv⟩ := h
  obtain ⟨n, hn, hfloat⟩ := toFloat_of_denotes (canonical_of_shape hx) hm hd hv negative
  exact ⟨n, hn, hfloat ▸ equal_ofMagnitude hx⟩

/-- A zero reads as a zero, whatever the signs of the two are. -/
theorem parse?_zero {x : Float} {negative : Bool} {q : Int} (hx : shape x = .finite negative 0 q) (sign : Bool) :
    ∃ n, Numeral.parse? (signed sign ['0']) = some n ∧ equal x n.toFloat = true := by
  refine ⟨⟨sign, ['0'], [], 0⟩, by cases sign <;> decide, ?_⟩
  have hzero : shape (ofMagnitude sign 0) = .finite sign 0 (-1074) :=
    shape_ofMagnitude ⟨by norm_num, .inr rfl, le_rfl, by norm_num⟩ sign
  have hfloat : Numeral.toFloat ⟨sign, ['0'], [], 0⟩ = ofMagnitude sign 0 := rfl
  simp [hfloat, equal, isNaN, isZero, hx, hzero]

/-- The brief layout of a double is a numeral that denotes an equal number. -/
theorem parse?_brief {x : Float} (h : IsFinite x) :
    ∃ n, Numeral.parse? (brief x).toList = some n ∧ equal x n.toFloat = true := by
  obtain ⟨negative, m, q, hx⟩ := h
  rcases Nat.eq_zero_or_pos m with rfl | hm
  · have hbrief : (brief x).toList = signed false ['0'] := by simp [brief, hx, magnitudeText, signed]
    rw [hbrief]
    exact parse?_zero hx false
  · have hbrief : (brief x).toList = signed negative (magnitudeText m q) := by
      have hne : (m != 0) = true := by simpa using hm.ne'
      simp [brief, hx, hne]
    rw [hbrief]
    exact parse?_of_denotes hx hm (denotes_magnitudeText (canonical_of_shape hx) hm)

theorem isNumeral_brief {x : Float} (h : IsFinite x) : isNumeral (brief x).toList := by
  obtain ⟨n, hn, -⟩ := parse?_brief h
  rw [isNumeral, hn]
  rfl

/-! ## The characters of a numeral -/

theorem mem_splitSign {cs : List Char} {c : Char} (h : c ∈ cs) :
    c = '-' ∨ c = '+' ∨ c ∈ (splitSign cs).2 := by
  unfold splitSign
  split
  · rcases List.mem_cons.1 h with h | h
    · exact .inl h
    · exact .inr (.inr h)
  · rcases List.mem_cons.1 h with h | h
    · exact .inr (.inl h)
    · exact .inr (.inr h)
  · exact .inr (.inr h)

theorem mem_splitDigits {cs : List Char} {c : Char} (h : c ∈ cs) :
    c.isDigit ∨ c ∈ (splitDigits cs).2 := by
  rw [← List.takeWhile_append_dropWhile (p := Char.isDigit) (l := cs)] at h
  rcases List.mem_append.1 h with h | h
  · exact .inl (List.mem_takeWhile_imp h)
  · exact .inr h

/-- The characters of a numeral. -/
def IsNumeralChar (c : Char) : Prop := c.isDigit ∨ c = '-' ∨ c = '+' ∨ c = '.' ∨ c = 'e' ∨ c = 'E'

theorem isNumeralChar_of_exponent {cs : List Char} {e : Int} (h : exponent? cs = some e) :
    ∀ c ∈ cs, IsNumeralChar c := by
  cases cs with
  | nil => simp
  | cons d cs =>
    simp only [exponent?, Option.ite_none_right_eq_some] at h
    obtain ⟨hd, hds⟩ := h
    simp only [Option.ite_none_left_eq_some, Bool.or_eq_true, Bool.not_eq_true', not_or, Bool.not_eq_false] at hds
    intro c hc
    rcases List.mem_cons.1 hc with rfl | hc
    · rcases hd with rfl | rfl <;> simp [IsNumeralChar]
    · rcases mem_splitSign hc with rfl | rfl | hc
      · simp [IsNumeralChar]
      · simp [IsNumeralChar]
      · exact .inl (List.all_eq_true.1 hds.1.2 c hc)

theorem isNumeralChar_of_isNumeral {cs : List Char} (h : isNumeral cs) : ∀ c ∈ cs, IsNumeralChar c := by
  obtain ⟨n, hn⟩ := Option.isSome_iff_exists.1 h
  unfold Numeral.parse? at hn
  dsimp only at hn
  intro c hc
  rcases mem_splitSign hc with rfl | rfl | hc
  · simp [IsNumeralChar]
  · simp [IsNumeralChar]
  rcases mem_splitDigits hc with hc | hc
  · exact .inl hc
  split at hn
  next more hmore =>
    split at hn
    · simp at hn
    · obtain ⟨e, he, -⟩ := Option.map_eq_some_iff.1 hn
      rw [hmore] at hc
      rcases List.mem_cons.1 hc with rfl | hc
      · simp [IsNumeralChar]
      rcases mem_splitDigits hc with hc | hc
      · exact .inl hc
      · exact isNumeralChar_of_exponent he c hc
  next =>
    split at hn
    · simp at hn
    · obtain ⟨e, he, -⟩ := Option.map_eq_some_iff.1 hn
      exact isNumeralChar_of_exponent he c hc

theorem isBlank_of_isNumeralChar {c : Char} (h : IsNumeralChar c) : Text.isBlank c = false := by
  rcases h with h | rfl | rfl | rfl | rfl | rfl
  · simp only [Char.isDigit, Bool.and_eq_true, decide_eq_true_eq, ge_iff_le, UInt32.le_iff_toNat_le] at h
    simp only [Text.isBlank, Char.toNat]
    simp at h ⊢
    omega
  all_goals decide

theorem ofText_of_parse? {text : String} {n : Numeral} (h : Numeral.parse? text.toList = some n) :
    ofText text = n.toFloat := by
  have hnumeral : isNumeral text.toList := by
    rw [isNumeral, h]
    rfl
  have hchars := isNumeralChar_of_isNumeral hnumeral
  have htrim := Text.trim_eq fun c hc => isBlank_of_isNumeralChar (hchars c hc)
  have hne : text.toList.isEmpty = false := by
    cases hb : text.toList with
    | nil =>
      rw [hb] at h
      cases h
    | cons c cs => rfl
  simp only [ofText, htrim, hne, h]
  rfl

/-- A finite number reads back from its brief layout. -/
theorem equal_ofText_brief {x : Float} (h : IsFinite x) : equal x (ofText (brief x)) = true := by
  obtain ⟨n, hn, hx⟩ := parse?_brief h
  rw [ofText_of_parse? hn]
  exact hx

/-! ## Numerals denote numbers -/

/-- Bits below the infinity are those of an integer and an exponent. -/
theorem exists_canonical_of_lt {bits : Nat} (h : bits < infinityBits) : ∃ m q, Canonical m q ∧ magnitudeBits m q = bits := by
  simp only [infinityBits, twoTo_eq] at h
  by_cases hsmall : bits < 2 ^ 52
  · refine ⟨bits, -1074, ⟨by omega, .inr rfl, le_rfl, by omega⟩, ?_⟩
    simp [magnitudeBits, minExponent]
  · refine ⟨2 ^ 52 + bits % 2 ^ 52, (bits / 2 ^ 52 : Nat) - 1075, ⟨by omega, .inl (by omega), by omega, by omega⟩, ?_⟩
    rw [magnitudeBits, minExponent, twoTo_eq]
    omega

theorem isNaN_ofMagnitude (negative : Bool) {bits : Nat} (h : bits ≤ infinityBits) :
    isNaN (ofMagnitude negative bits) = false := by
  rcases Nat.eq_or_lt_of_le h with rfl | hlt
  · cases negative <;> rfl
  · obtain ⟨m, q, hc, rfl⟩ := exists_canonical_of_lt hlt
    simp [isNaN, shape_ofMagnitude hc]

theorem isNaN_ofRatio (negative : Bool) (n d : Nat) : isNaN (ofRatio negative n d) = false := by
  unfold ofRatio
  split
  · exact isNaN_ofMagnitude negative (Nat.zero_le _)
  · exact isNaN_ofMagnitude negative (Nat.min_le_right _ _)

theorem isNaN_toFloat (n : Numeral) : isNaN n.toFloat = false := by
  unfold Numeral.toFloat ofDecimal
  dsimp only
  split_ifs
  · exact isNaN_ofMagnitude _ (Nat.zero_le _)
  · exact isNaN_ofMagnitude _ le_rfl
  · exact isNaN_ofMagnitude _ (Nat.zero_le _)
  · exact isNaN_ofRatio _ _ _

/-- A numeral denotes a number, which may be infinite. -/
theorem isNaN_ofText_of_isNumeral {text : String} (h : isNumeral text.toList) : isNaN (ofText text) = false := by
  obtain ⟨n, hn⟩ := Option.isSome_iff_exists.1 h
  rw [ofText_of_parse? hn]
  exact isNaN_toFloat n

end Lisplet.Number
