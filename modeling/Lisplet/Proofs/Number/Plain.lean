import Lisplet.Proofs.Number.ReadBack
/-!
# A number without an exponent reads back

The plain layout takes the exponent out of the brief one again. What is left are the digits with the point at its place
(`positional`), whether the brief layout had an exponent or not (`plain_layout`); so it denotes the same decimal, and reads
back as an equal number (`equal_ofText_plain`).
-/
namespace Lisplet.Number

/-- The digits with the point at its place, however far away that is. -/
def positional (digits : List Char) (point : Int) : List Char :=
  if point ≤ 0 then '0' :: '.' :: (List.replicate (-point).toNat '0' ++ digits)
  else if digits.length ≤ point then digits ++ List.replicate (point.toNat - digits.length) '0'
  else digits.take point.toNat ++ '.' :: digits.drop point.toNat

theorem denotes_positional {digits : List Char} (hne : digits ≠ []) (hdigit : ∀ d ∈ digits, d.isDigit) (k : Int) :
    Denotes (positional digits (digits.length + k)) (readDigits digits * 10 ^ k) := by
  unfold positional
  split
  · convert denotes_behind hne hdigit (-(digits.length + k)).toNat using 3
    omega
  split
  · convert denotes_padded hne hdigit ((digits.length + k).toNat - digits.length) using 3
    omega
  · convert denotes_cut hdigit (digits.length + k).toNat (by omega) (by omega) using 3
    omega

/-! ## Taking the exponent out -/

theorem readSigned_marked (power : Int) :
    readSigned ((if power < 0 then '-' else '+') :: digitsOf power.natAbs) = power := by
  by_cases h : power < 0
  · simp [h, readSigned, readDigits_digitsOf, abs_of_neg]
  · simp [h, readSigned, readDigits_digitsOf, abs_of_nonneg (not_lt.1 h)]

theorem ne_of_isDigit {c stop : Char} (hc : c.isDigit) (hs : stop.isDigit = false) : c ≠ stop := by
  rintro rfl
  simp [hs] at hc

theorem head?_pointed (fraction : List Char) : ∀ c, (pointed fraction).head? = some c → c = '.' := by
  intro c hc
  unfold pointed at hc
  split at hc
  · cases hc
  · exact (Option.some.inj hc).symm

theorem drop_pointed (fraction : List Char) : (pointed fraction).drop 1 = fraction := by
  unfold pointed
  split
  · simp_all
  · rfl

/-- The characters of a decimal with a point are digits and the point. -/
theorem mem_pointed {fraction : List Char} {c : Char} (h : c ∈ pointed fraction) : c = '.' ∨ c ∈ fraction := by
  unfold pointed at h
  split at h
  · cases h
  · exact List.mem_cons.1 h

/-- A decimal with an exponent, without it: the exponent moves the point. -/
theorem withoutExponent_spelled {whole fraction : List Char} (hw : ∀ d ∈ whole, d.isDigit) (hf : ∀ d ∈ fraction, d.isDigit)
    (ex : List Char) :
    withoutExponent (whole ++ pointed fraction ++ 'e' :: ex) = positional (whole ++ fraction) (whole.length + readSigned ex) := by
  have hmantissa : ∀ c ∈ whole ++ pointed fraction, (c != 'e') = true := by
    intro c hc
    rw [bne_iff_ne]
    rcases List.mem_append.1 hc with hc | hc
    · exact ne_of_isDigit (hw c hc) rfl
    rcases mem_pointed hc with rfl | hc
    · decide
    · exact ne_of_isDigit (hf c hc) rfl
  have hmark : ∀ c, ('e' :: ex).head? = some c → (c != 'e') = false := by simp
  have hdigits : ∀ c ∈ whole, (c != '.') = true := fun c hc => bne_iff_ne.2 (ne_of_isDigit (hw c hc) rfl)
  have hstop : ∀ c, (pointed fraction).head? = some c → (c != '.') = false :=
    fun c hc => by simp [head?_pointed fraction c hc]
  obtain ⟨hbefore, hbehind⟩ := Text.takeWhile_run hmantissa hmark
  obtain ⟨hwhole, hpoint⟩ := Text.takeWhile_run hdigits hstop
  rw [withoutExponent, hbefore, hbehind, hwhole, hpoint, drop_pointed]
  simp only [List.drop_succ_cons, List.drop_zero, positional]

theorem mem_positional {digits : List Char} (hdigit : ∀ d ∈ digits, d.isDigit) {point : Int} {c : Char}
    (h : c ∈ positional digits point) : c.isDigit ∨ c = '.' := by
  have hzero {k : Nat} (hc : c ∈ List.replicate k '0') : c.isDigit := isDigit_replicate_zero c hc
  unfold positional at h
  split_ifs at h
  · simp only [List.mem_cons, List.mem_append] at h
    rcases h with rfl | rfl | h | h
    · exact .inl rfl
    · exact .inr rfl
    · exact .inl (hzero h)
    · exact .inl (hdigit c h)
  · rcases List.mem_append.1 h with h | h
    · exact .inl (hdigit c h)
    · exact .inl (hzero h)
  · simp only [List.mem_append, List.mem_cons] at h
    rcases h with h | rfl | h
    · exact .inl (hdigit c (List.mem_of_mem_take h))
    · exact .inr rfl
    · exact .inl (hdigit c (List.mem_of_mem_drop h))

/-- Without its exponent, if it has one, a layout is the digits with the point at its place. -/
theorem plain_layout {digits : List Char} (hne : digits ≠ []) (hdigit : ∀ d ∈ digits, d.isDigit) (point : Int) :
    (if (layout digits point).contains 'e' then withoutExponent (layout digits point) else layout digits point) =
      positional digits point := by
  have hlen : 0 < digits.length := List.length_pos_of_ne_nil hne
  by_cases hexp : point ≤ -6 ∨ 21 < point
  · -- The point is too far away, and the layout has an exponent.
    have hlayout : layout digits point = digits.take 1 ++ pointed (digits.drop 1) ++
        'e' :: (if point - 1 < 0 then '-' else '+') :: digitsOf (point - 1).natAbs := by
      rw [layout, if_neg (by omega), if_neg (by omega), if_neg (by omega)]
      simp only [pointed, List.drop_eq_nil_iff]
    have hcontains : (layout digits point).contains 'e' = true := by simp [hlayout]
    have htake : ((digits.take 1).length : Int) + (point - 1) = point := by
      rw [List.length_take]
      omega
    rw [if_pos hcontains, hlayout, withoutExponent_spelled (fun d hd => hdigit d (List.mem_of_mem_take hd))
      (fun d hd => hdigit d (List.mem_of_mem_drop hd)), readSigned_marked, List.take_append_drop, htake]
  · -- The point is near, and the layout is the text that was to be shown.
    have hlayout : layout digits point = positional digits point := by
      by_cases hpos : point ≤ 0
      · rw [layout, positional, if_neg (by omega), if_neg (by omega), if_pos (by omega), if_pos hpos]
      by_cases hlong : digits.length ≤ point
      · rw [layout, positional, if_pos (by omega), if_neg hpos, if_pos hlong]
      · rw [layout, positional, if_neg (by omega), if_pos (by omega), if_neg hpos, if_neg hlong]
    have hcontains : (layout digits point).contains 'e' = false := by
      rw [List.contains_eq_mem, decide_eq_false_iff_not, hlayout]
      intro he
      rcases mem_positional hdigit he with he | he <;> simp at he
    rw [hcontains, ← hlayout]
    simp

theorem denotes_magnitudePlain {m : Nat} {q : Int} (hc : Canonical m q) (hm : 0 < m) :
    ∃ v, Denotes (magnitudePlain m q) v ∧ Reads m q v := by
  have hne := digitsOf_ne_nil (shortest m q).digits
  have hdigit := all_isDigit_digitsOf (shortest m q).digits
  have hd := denotes_positional hne hdigit (shortest m q).exponent
  rw [readDigits_digitsOf] at hd
  refine ⟨_, ?_, (shortest_reads hc hm).1⟩
  rw [magnitudePlain, magnitudeText, if_neg hm.ne', plain_layout hne hdigit]
  exact hd

/-! ## Reading a plain number -/

/-- The plain layout of a double is a numeral that denotes an equal number. -/
theorem parse?_plain {x : Float} (h : IsFinite x) :
    ∃ n, Numeral.parse? (plain x).toList = some n ∧ equal x n.toFloat = true := by
  obtain ⟨negative, m, q, hx⟩ := h
  have hplain : (plain x).toList = signed negative (magnitudePlain m q) := by simp [plain, hx]
  rw [hplain]
  rcases Nat.eq_zero_or_pos m with rfl | hm
  · exact parse?_zero hx negative
  · exact parse?_of_denotes hx hm (denotes_magnitudePlain (canonical_of_shape hx) hm)

theorem isNumeral_plain {x : Float} (h : IsFinite x) : isNumeral (plain x).toList := by
  obtain ⟨n, hn, -⟩ := parse?_plain h
  rw [isNumeral, hn]
  rfl

/-- A finite number reads back from its plain layout. -/
theorem equal_ofText_plain {x : Float} (h : IsFinite x) : equal x (ofText (plain x)) = true := by
  obtain ⟨n, hn, hx⟩ := parse?_plain h
  rw [ofText_of_parse? hn]
  exact hx

end Lisplet.Number
