import Lisplet.Proofs.Number.Plain
/-!
# Taking an exponent out is exact

A numeral denotes a rational number: its digits as an integer, times the power of ten that its exponent and the digits behind
its point make (`Numeral.value`, `denoted?`). Without its exponent a decimal has the same digits, up to zeros in front of them
or behind them, with the point at its place (`positional`), so it denotes the same number (`pointed_positional`). The plain
layout of a double is the brief one without its exponent, with a minus sign in front exactly if the double is negative or the
negative zero.

Main statement: the exponent of a decimal can be taken out whatever digits it has, and the plain layout of a finite double
denotes exactly what the brief layout denotes (`denoted?_withoutExponent`).
-/
namespace Lisplet.Number

/-- The rational number that a numeral denotes. -/
def Numeral.value (n : Numeral) : ℚ :=
  (if n.negative then -1 else 1) * (readDigits (n.whole ++ n.fraction) * 10 ^ (n.exponent - n.fraction.length))

/-- The rational number that a text denotes, if it is a numeral. -/
def denoted? (text : List Char) : Option ℚ := (Numeral.parse? text).map Numeral.value

theorem exponent?_nil : exponent? [] = some 0 := rfl

/-- A row of digits, not empty, behind which a point and more digits may follow. -/
structure IsPointed (text : List Char) (whole fraction : List Char) : Prop where
  text_eq : text = whole ++ pointed fraction
  whole_ne_nil : whole ≠ []
  isDigit_whole : ∀ d ∈ whole, d.isDigit
  isDigit_fraction : ∀ d ∈ fraction, d.isDigit

theorem IsPointed.denoted?_signed {text whole fraction ex : List Char} {e : Int} (h : IsPointed text whole fraction)
    (he : exponent? ex = some e) (negative : Bool) :
    denoted? (signed negative (text ++ ex)) =
      some ((if negative then -1 else 1) * (readDigits (whole ++ fraction) * 10 ^ (e - fraction.length)) : ℚ) := by
  rw [denoted?, h.text_eq, parse?_signed h.whole_ne_nil h.isDigit_whole h.isDigit_fraction he]
  rfl

/-! ## The point at its place -/

/-- The digits with the point at its place denote the digits times a power of ten. -/
theorem pointed_positional {digits : List Char} (hne : digits ≠ []) (hdigit : ∀ d ∈ digits, d.isDigit) (point : Int) :
    ∃ whole fraction, IsPointed (positional digits point) whole fraction ∧
      (readDigits (whole ++ fraction) * 10 ^ (0 - fraction.length : Int) : ℚ) =
        readDigits digits * 10 ^ (point - digits.length) := by
  have hzeros {k : Nat} : ∀ d ∈ List.replicate k '0', d.isDigit := isDigit_replicate_zero
  unfold positional
  split_ifs with hfront hbehind
  · -- All digits stand behind the point, with zeros in front of them.
    refine ⟨['0'], List.replicate (-point).toNat '0' ++ digits, ⟨?_, by simp, by simp, ?_⟩, ?_⟩
    · simp [pointed, hne]
    · exact List.forall_mem_append.2 ⟨hzeros, hdigit⟩
    · rw [← List.append_assoc, show ['0'] ++ List.replicate (-point).toNat '0' = List.replicate ((-point).toNat + 1) '0' from rfl,
        readDigits_zeros_append]
      congr 2
      simp
      omega
  · -- All digits stand before the point, with zeros behind them.
    refine ⟨digits ++ List.replicate (point.toNat - digits.length) '0', [], ⟨?_, by simp [hne], ?_, by simp⟩, ?_⟩
    · simp [pointed]
    · exact List.forall_mem_append.2 ⟨hdigit, hzeros⟩
    · have hpower : ((point.toNat - digits.length : ℕ) : Int) = point - digits.length := by omega
      rw [List.append_nil, readDigits_append_zeros, ← hpower]
      simp
  · -- The point stands among the digits.
    have hdrop : digits.drop point.toNat ≠ [] := by
      simp
      omega
    have htake : digits.take point.toNat ≠ [] := by
      simp [hne]
      omega
    refine ⟨digits.take point.toNat, digits.drop point.toNat, ⟨?_, htake, ?_, ?_⟩, ?_⟩
    · simp [pointed, hdrop]
    · exact fun d hd => hdigit d (List.mem_of_mem_take hd)
    · exact fun d hd => hdigit d (List.mem_of_mem_drop hd)
    · rw [List.take_append_drop]
      congr 2
      simp
      omega

/-! ## Exponents -/

/-- An exponent as it may be written: digits behind an optional sign. -/
inductive IsExponent : List Char → Int → Prop
  | unsigned {digits : List Char} : digits ≠ [] → (∀ d ∈ digits, d.isDigit) → IsExponent digits (readDigits digits)
  | plus {digits : List Char} : digits ≠ [] → (∀ d ∈ digits, d.isDigit) → IsExponent ('+' :: digits) (readDigits digits)
  | minus {digits : List Char} : digits ≠ [] → (∀ d ∈ digits, d.isDigit) → IsExponent ('-' :: digits) (-readDigits digits)

theorem exists_cons_not_sign {digits : List Char} (hne : digits ≠ []) (hd : ∀ d ∈ digits, d.isDigit) :
    ∃ d more, digits = d :: more ∧ d ≠ '-' ∧ d ≠ '+' := by
  obtain ⟨d, more, rfl⟩ := List.exists_cons_of_ne_nil hne
  have hdigit := hd d (by simp)
  exact ⟨d, more, rfl, ne_of_isDigit hdigit rfl, ne_of_isDigit hdigit rfl⟩

theorem IsExponent.readSigned_eq {ex : List Char} {e : Int} (h : IsExponent ex e) : readSigned ex = e := by
  cases h with
  | unsigned hne hd =>
    obtain ⟨d, more, rfl, hminus, hplus⟩ := exists_cons_not_sign hne hd
    simp [readSigned, hminus, hplus]
  | plus => rfl
  | minus => rfl

theorem IsExponent.exponent?_eq {ex : List Char} {e : Int} (h : IsExponent ex e) : exponent? ('e' :: ex) = some e := by
  cases h with
  | unsigned hne hd =>
    obtain ⟨d, more, rfl, hminus, hplus⟩ := exists_cons_not_sign hne hd
    simp [exponent?, splitSign, hminus, hplus, List.all_eq_true.2 hd]
  | plus hne hd => simp [exponent?, splitSign, hne, List.all_eq_true.2 hd]
  | minus hne hd => simp [exponent?, splitSign, hne, List.all_eq_true.2 hd]

/-- Without its exponent a decimal is digits with a point, and denotes the same number. -/
theorem IsPointed.withoutExponent {text whole fraction ex : List Char} {e : Int} (h : IsPointed text whole fraction)
    (he : IsExponent ex e) :
    ∃ whole' fraction', IsPointed (withoutExponent (text ++ 'e' :: ex)) whole' fraction' ∧
      denoted? (withoutExponent (text ++ 'e' :: ex)) = some (readDigits (whole ++ fraction) * 10 ^ (e - fraction.length) : ℚ) := by
  have hdigits : ∀ d ∈ whole ++ fraction, d.isDigit := List.forall_mem_append.2 ⟨h.isDigit_whole, h.isDigit_fraction⟩
  obtain ⟨whole', fraction', hpointed, hvalue⟩ :=
    pointed_positional (by simp [h.whole_ne_nil]) hdigits (whole.length + e)
  rw [h.text_eq, withoutExponent_spelled h.isDigit_whole h.isDigit_fraction, he.readSigned_eq]
  refine ⟨whole', fraction', hpointed, ?_⟩
  have hdenoted := hpointed.denoted?_signed exponent?_nil false
  rw [List.append_nil, if_neg (by simp), one_mul, hvalue] at hdenoted
  refine hdenoted.trans (congrArg some ?_)
  simp

/-! ## The plain layout -/

theorem Denotes.denoted?_signed {text : List Char} {v : ℚ} (h : Denotes text v) (negative : Bool) :
    denoted? (signed negative text) = some ((if negative then -1 else 1) * v) := by
  obtain ⟨whole, fraction, ex, e, rfl, hne, hw, hf, he, rfl, -, -⟩ := h
  exact IsPointed.denoted?_signed ⟨rfl, hne, hw, hf⟩ he negative

theorem IsPointed.head?_signed {text whole fraction : List Char} (h : IsPointed text whole fraction) (negative : Bool) :
    (signed negative text).head? = some '-' ↔ negative = true := by
  obtain ⟨d, more, rfl⟩ := List.exists_cons_of_ne_nil h.whole_ne_nil
  have hne : d ≠ '-' := ne_of_isDigit (h.isDigit_whole d (by simp)) rfl
  cases negative <;> simp [signed, h.text_eq, hne]

theorem isPointed_zero : IsPointed ['0'] ['0'] [] := ⟨rfl, by simp, by simp, by simp⟩

theorem denoted?_zero (negative : Bool) : denoted? (signed negative ['0']) = some 0 := by
  simpa [readDigits] using isPointed_zero.denoted?_signed exponent?_nil negative

/-- The plain layout of a finite double is digits with a point, behind a minus sign if the double has one, and denotes what the
brief layout denotes. -/
theorem exists_pointed_plain {x : Float} {negative : Bool} {m : Nat} {q : Int} (hx : shape x = .finite negative m q) :
    ∃ text whole fraction v, (plain x).toList = signed negative text ∧ IsPointed text whole fraction ∧
      denoted? (plain x).toList = some v ∧ denoted? (brief x).toList = some v := by
  have hplain : (plain x).toList = signed negative (magnitudePlain m q) := by simp [plain, hx]
  rw [hplain]
  rcases Nat.eq_zero_or_pos m with rfl | hm
  · have hbrief : (brief x).toList = ['0'] := by simp [brief, hx, magnitudeText, signed]
    rw [hbrief]
    exact ⟨['0'], ['0'], [], 0, rfl, isPointed_zero, denoted?_zero negative, denoted?_zero false⟩
  · have hbrief : (brief x).toList = signed negative (magnitudeText m q) := by
      have hne : (m != 0) = true := by simpa using hm.ne'
      simp [brief, hx, hne]
    have hne := digitsOf_ne_nil (shortest m q).digits
    have hdigit := all_isDigit_digitsOf (shortest m q).digits
    obtain ⟨-, hlow, hhigh⟩ := shortest_reads (canonical_of_shape hx) hm
    obtain ⟨whole, fraction, hpointed, -⟩ := pointed_positional hne hdigit
      ((digitsOf (shortest m q).digits).length + (shortest m q).exponent)
    rw [hbrief, magnitudePlain, magnitudeText, if_neg hm.ne', plain_layout hne hdigit]
    exact ⟨_, whole, fraction, _, rfl, hpointed, (denotes_positional hne hdigit _).denoted?_signed negative,
      (denotes_layout hne hdigit hlow hhigh).denoted?_signed negative⟩

/-- The exponent of a decimal can be taken out exactly: what is left are digits with a point, and they denote the same number.
So the plain layout of a finite double denotes exactly what the brief one denotes. It is digits with a point as well, behind a
minus sign exactly if the double is negative or the negative zero. -/
theorem denoted?_withoutExponent :
    (∀ (text whole fraction ex : List Char) (e : Int), IsPointed text whole fraction → IsExponent ex e →
      (∃ whole' fraction', IsPointed (withoutExponent (text ++ 'e' :: ex)) whole' fraction') ∧
        denoted? (text ++ 'e' :: ex) = some (readDigits (whole ++ fraction) * 10 ^ (e - fraction.length) : ℚ) ∧
        denoted? (withoutExponent (text ++ 'e' :: ex)) = denoted? (text ++ 'e' :: ex)) ∧
      ∀ x, IsFinite x →
        (∃ text whole fraction, (plain x).toList = signed (isNegative x) text ∧ IsPointed text whole fraction) ∧
          (∃ v, denoted? (plain x).toList = some v ∧ denoted? (brief x).toList = some v) ∧
          ((plain x).toList.head? = some '-' ↔ isNegative x) := by
  refine ⟨fun text whole fraction ex e h he => ?_, fun x hx => ?_⟩
  · obtain ⟨whole', fraction', hpointed, hdenoted⟩ := h.withoutExponent he
    have hsource : denoted? (text ++ 'e' :: ex) = some (readDigits (whole ++ fraction) * 10 ^ (e - fraction.length) : ℚ) := by
      simpa [signed] using h.denoted?_signed he.exponent?_eq false
    exact ⟨⟨whole', fraction', hpointed⟩, hsource, hdenoted.trans hsource.symm⟩
  · obtain ⟨negative, m, q, hx⟩ := hx
    have hsign : isNegative x = negative := by simp [isNegative, hx]
    obtain ⟨text, whole, fraction, v, htext, hpointed, hplain, hbrief⟩ := exists_pointed_plain hx
    rw [hsign]
    refine ⟨⟨text, whole, fraction, htext, hpointed⟩, ⟨v, hplain, hbrief⟩, ?_⟩
    rw [htext]
    exact hpointed.head?_signed negative

/-- The double `-2 ^ 70`, which has an exponent in the brief layout. -/
def largeNegative : Float := ofMagnitude true (magnitudeBits (2 ^ 52) 18)

theorem shape_largeNegative : shape largeNegative = .finite true (2 ^ 52) 18 :=
  shape_ofMagnitude ⟨by norm_num, .inl le_rfl, by norm_num, by norm_num⟩ true

theorem plain_largeNegative :
    plain largeNegative = "-1180591620717411300000" ∧ brief largeNegative = "-1.1805916207174113e+21" := by
  rw [plain, brief, shape_largeNegative]
  decide +kernel

/-- The exponent `-07` taken out of a decimal, and a double with and without its exponent. -/
theorem denoted?_withoutExponent_largeNegative :
    (IsPointed ['1', '2', '.', '5'] ['1', '2'] ['5'] ∧ IsExponent ['-', '0', '7'] (-7) ∧
      withoutExponent ['1', '2', '.', '5', 'e', '-', '0', '7'] = ['0', '.', '0', '0', '0', '0', '0', '1', '2', '5'] ∧
      denoted? ['0', '.', '0', '0', '0', '0', '0', '1', '2', '5'] = denoted? ['1', '2', '.', '5', 'e', '-', '0', '7']) ∧
      (IsFinite largeNegative ∧
        plain largeNegative = "-1180591620717411300000" ∧ brief largeNegative = "-1.1805916207174113e+21" ∧
          ∃ v, denoted? (plain largeNegative).toList = some v ∧ denoted? (brief largeNegative).toList = some v) := by
  obtain ⟨htexts, hdoubles⟩ := denoted?_withoutExponent
  have hpointed : IsPointed ['1', '2', '.', '5'] ['1', '2'] ['5'] := ⟨rfl, by simp, by simp, by simp⟩
  have hexponent : IsExponent ['-', '0', '7'] (-7) := .minus (by simp) (by simp)
  have hfinite : IsFinite largeNegative := ⟨_, _, _, shape_largeNegative⟩
  obtain ⟨hplain, hbrief⟩ := plain_largeNegative
  exact ⟨⟨hpointed, hexponent, rfl, (htexts _ _ _ _ _ hpointed hexponent).2.2⟩, hfinite, hplain, hbrief,
    (hdoubles _ hfinite).2.1⟩

end Lisplet.Number
