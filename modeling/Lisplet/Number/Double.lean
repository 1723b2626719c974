/-!
# Numbers as scaled integers

A number of the language is a double. Its bits split into a sign, an integer `m` and an exponent `q`
with value `m * 2 ^ q` (`shape`), and every quotient of integers has a nearest double, a tie going to
the even one (`ofRatio`). Exact printing, reading and remainders go through these two functions.

Equality of numbers (`equal`) is read off the bits. Main statement: apart from what is no number it is
an equivalence (`equal_refl`, `equal_symm`, `equal_trans`).
-/
namespace Lisplet.Number

/-- What a double is: no number, an infinity, or `± m * 2 ^ q`. -/
inductive Shape where
  | nan
  | infinite (negative : Bool)
  | finite (negative : Bool) (m : Nat) (q : Int)
deriving DecidableEq, Repr

/-- The power `2 ^ k`. -/
def twoTo (k : Nat) : Nat := Nat.pow 2 k

/-- The power `10 ^ k`. -/
def tenTo (k : Nat) : Nat := Nat.pow 10 k

/-- The least exponent of a double. -/
def minExponent : Int := -1074

/-- Splits a double into sign, integer and exponent. -/
def shape (x : Float) : Shape :=
  let bits := x.toBits.toNat
  let negative := bits / twoTo 63 == 1
  let biased : Nat := bits / twoTo 52 % twoTo 11
  let fraction := bits % twoTo 52
  if biased = 2047 then
    if fraction = 0 then .infinite negative else .nan
  else if biased = 0 then .finite negative fraction minExponent
  else .finite negative (twoTo 52 + fraction) (Int.ofNat biased - 1075)

/-- The integer nearest to `n / d`; a tie goes to the even one. -/
def roundQuotient (n d : Nat) : Nat :=
  let low := n / d
  let twice := 2 * (n % d)
  if twice < d || (twice == d && low % 2 == 0) then low else low + 1

/-- The numerator of `n / d` over `2 ^ q`, as a pair to be divided. -/
def scaled (n d : Nat) (q : Int) : Nat × Nat :=
  (n * twoTo (-q).toNat, d * twoTo q.toNat)

/-- The exponent for which `n / d` over `2 ^ q` has fifty-three bits, or the least one. -/
def exponentFor (n d : Nat) : Int :=
  let guess : Int := Int.ofNat n.log2 - Int.ofNat d.log2 - 52
  let (a, b) := scaled n d guess
  max minExponent (if a / b < twoTo 52 then guess - 1 else guess)

/-- The bits of the infinity. -/
def infinityBits : Nat := 2047 * twoTo 52

/-- The double of a sign and the bits of its size. -/
def ofMagnitude (negative : Bool) (bits : Nat) : Float :=
  Float.ofBits (UInt64.ofNat (if negative then bits + twoTo 63 else bits))

/-- The double nearest to `± n / d`; a tie goes to the even one, and what is too large is infinite. -/
def ofRatio (negative : Bool) (n d : Nat) : Float :=
  if n = 0 then ofMagnitude negative 0
  else
    let q := exponentFor n d
    let (a, b) := scaled n d q
    let bits := roundQuotient a b + (q - minExponent).toNat * twoTo 52
    ofMagnitude negative (min bits infinityBits)

/-- The double nearest to `± m * 2 ^ q`. -/
def ofScaled (negative : Bool) (m : Nat) (q : Int) : Float :=
  ofRatio negative (m * twoTo q.toNat) (twoTo (-q).toNat)

/-- Whether a double is no number. -/
def isNaN (x : Float) : Bool := shape x == .nan

/-- Whether a double is one of the two zeros. -/
def isZero (x : Float) : Bool :=
  match shape x with
  | .finite _ m _ => m == 0
  | _ => false

/-- Equality of numbers: what is no number differs from everything, and the two zeros are equal. -/
def equal (x y : Float) : Bool :=
  !isNaN x && (x.toBits == y.toBits || (isZero x && isZero y))

/-- Whether a number is NaN is told by its bits. -/
theorem isNaN_of_toBits_eq {x y : Float} (h : x.toBits = y.toBits) : isNaN x = isNaN y := by
  simp [isNaN, shape, h]

theorem isZero_of_toBits_eq {x y : Float} (h : x.toBits = y.toBits) : isZero x = isZero y := by
  simp [isZero, shape, h]

theorem isNaN_of_isZero {x : Float} (h : isZero x = true) : isNaN x = false := by
  unfold isZero at h
  unfold isNaN
  cases hs : shape x <;> simp_all

/-- A number is equal to itself unless it is NaN. -/
theorem equal_refl {x : Float} (h : isNaN x = false) : equal x x = true := by
  simp [equal, h]

theorem equal_symm {x y : Float} (h : equal x y = true) : equal y x = true := by
  simp only [equal, Bool.and_eq_true, Bool.not_eq_true', Bool.or_eq_true, beq_iff_eq] at h ⊢
  obtain ⟨hx, hb | ⟨zx, zy⟩⟩ := h
  · exact ⟨by rw [← isNaN_of_toBits_eq hb, hx], .inl hb.symm⟩
  · exact ⟨isNaN_of_isZero zy, .inr ⟨zy, zx⟩⟩

/-- The two zeros are equal to each other, and so to whatever one of them is. -/
theorem equal_trans {x y z : Float} (h₁ : equal x y = true) (h₂ : equal y z = true) :
    equal x z = true := by
  simp only [equal, Bool.and_eq_true, Bool.not_eq_true', Bool.or_eq_true, beq_iff_eq] at h₁ h₂ ⊢
  obtain ⟨hx, hb | ⟨zx, zy⟩⟩ := h₁
  · obtain ⟨_, hc | ⟨zy, zz⟩⟩ := h₂
    · exact ⟨hx, .inl (hb.trans hc)⟩
    · exact ⟨hx, .inr ⟨by rw [isZero_of_toBits_eq hb, zy], zz⟩⟩
  · obtain ⟨_, hc | ⟨_, zz⟩⟩ := h₂
    · exact ⟨hx, .inr ⟨zx, by rw [← isZero_of_toBits_eq hc, zy]⟩⟩
    · exact ⟨hx, .inr ⟨zx, zz⟩⟩

/-- Whether a double is negative or the negative zero. -/
def isNegative (x : Float) : Bool :=
  match shape x with
  | .nan => false
  | .infinite negative => negative
  | .finite negative _ _ => negative

/-- The integer a double is, if it is one. -/
def toInt? (x : Float) : Option Int :=
  match shape x with
  | .finite negative m q =>
    let n := m * twoTo q.toNat
    let d := twoTo (-q).toNat
    if n % d = 0 then some (if negative then -Int.ofNat (n / d) else Int.ofNat (n / d)) else none
  | _ => none

/-- The positive infinity. -/
def infinity : Float := ofMagnitude false infinityBits

/-- The value that is no number. -/
def nan : Float := ofMagnitude false (infinityBits + twoTo 51)

/-! ## Remainders and powers -/

/-- What is left of `x` after taking `y` from it as often as it goes, with the sign of `x`. -/
def remainder (x y : Float) : Float :=
  match shape x, shape y with
  | .nan, _ | _, .nan | .infinite _, _ => nan
  | .finite _ _ _, .infinite _ => x
  | .finite negative m q, .finite _ m' q' =>
    if m' = 0 then nan
    else
      let unit := min q q'
      let a := m * twoTo (q - unit).toNat
      let b := m' * twoTo (q' - unit).toNat
      ofScaled negative (a % b) unit

/-- `x` to the power `y`. -/
def power (x y : Float) : Float :=
  match shape y with
  | .nan => nan
  | .infinite _ => if x.abs == 1 then nan else x.pow y
  | .finite _ _ _ => x.pow y

end Lisplet.Number
