import Lisplet.Number.Double
/-!
# The shortest decimal of a double

Of all decimals that read back as a given double, the one with the fewest digits is taken, and of
those the nearest. The reals that read back as `m * 2 ^ q` form an interval around it, half way to
either neighbour, whose ends count when `m` is even. On each decimal grid, from coarse to fine, only
the two neighbours of the value need a test; everything is done in exact integers.
-/
namespace Lisplet.Number

/-- A decimal `digits * 10 ^ exponent`. -/
structure Decimal where
  digits : Nat
  exponent : Int
deriving DecidableEq, Repr

/-- The reals that read back as a double, in quarters of its unit `2 ^ q`. -/
structure Interval where
  low : Nat
  value : Nat
  high : Nat
  /-- Whether the ends belong to it. -/
  closed : Bool
deriving DecidableEq, Repr

/-- The interval of `m * 2 ^ q`; below a power of two the neighbours lie twice as close. -/
def Interval.of (m : Nat) (q : Int) : Interval where
  low := if m = twoTo 52 ∧ minExponent < q then 4 * m - 1 else 4 * m - 2
  value := 4 * m
  high := 4 * m + 2
  closed := m % 2 == 0

/-- The factors that bring a point of the grid `10 ^ k` and a quarter of `2 ^ q` to one unit. -/
def gridFactors (q k : Int) : Nat × Nat :=
  (tenTo k.toNat * twoTo (2 - q).toNat, tenTo (-k).toNat * twoTo (q - 2).toNat)

/-- Whether a point, in common units, lies in the interval scaled by `f`. -/
def Interval.holds (i : Interval) (f point : Nat) : Bool :=
  if i.closed then i.low * f ≤ point && point ≤ i.high * f
  else i.low * f < point && point < i.high * f

/-- The point of the grid `10 ^ k` that reads back as `m * 2 ^ q` and lies nearest to it. -/
def gridPoint? (m : Nat) (q k : Int) : Option Nat :=
  let i := Interval.of m q
  let (p, f) := gridFactors q k
  let v := i.value * f
  let c := v / p
  let below := i.holds f (c * p)
  let above := i.holds f ((c + 1) * p)
  if below && above then
    let shortfall := v - c * p
    let excess := (c + 1) * p - v
    some (if shortfall < excess || (shortfall == excess && c % 2 == 0) then c else c + 1)
  else if below then some c
  else if above then some (c + 1)
  else none

/-- An exponent `k` with `m * 2 ^ q` below `10 ^ k`, and not far below. -/
def decimalBound (m : Nat) (q : Int) : Int :=
  (Int.ofNat m.log2 + q + 1) * 30103 / 100000 + 1

/-- Tries the grids from `10 ^ k` down. -/
def searchGrids (m : Nat) (q : Int) : Nat → Int → Decimal
  | 0, _ => ⟨m, q⟩
  | fuel + 1, k =>
    match gridPoint? m q k with
    | some c => ⟨c, k⟩
    | none => searchGrids m q fuel (k - 1)

/-- The shortest decimal that reads back as `m * 2 ^ q`; twenty grids always suffice. -/
def shortest (m : Nat) (q : Int) : Decimal :=
  searchGrids m q 20 (decimalBound m q)

end Lisplet.Number
