/-!
# Quaternions

A quaternion `a + bi + cj + dk` over any kind of number: sum, difference, Hamilton product, inverse
and right division. A mixed operand is either a plain number or a quaternion; two numbers stay plain,
and a quaternion promotes its partner (`Numeric.promoting`). Exponential and logarithm need real
functions and exist for doubles only.
-/
namespace Lisplet

/-- The quaternion `a + bi + cj + dk`. -/
structure Quaternion (α : Type) where
  a : α
  b : α
  c : α
  d : α
deriving DecidableEq, Repr, Inhabited

namespace Quaternion

variable {α : Type}

/-- The four parts in order. -/
def parts (q : Quaternion α) : List α := [q.a, q.b, q.c, q.d]

/-- A number as a quaternion. -/
def ofReal [OfNat α 0] (x : α) : Quaternion α := ⟨x, 0, 0, 0⟩

/-- The sum, part by part. -/
def add [Add α] (p q : Quaternion α) : Quaternion α :=
  ⟨p.a + q.a, p.b + q.b, p.c + q.c, p.d + q.d⟩

/-- The difference, part by part. -/
def sub [Sub α] (p q : Quaternion α) : Quaternion α :=
  ⟨p.a - q.a, p.b - q.b, p.c - q.c, p.d - q.d⟩

/-- The Hamilton product; the order of the factors matters. -/
def mul [Add α] [Sub α] [Mul α] (p q : Quaternion α) : Quaternion α :=
  ⟨p.a * q.a - p.b * q.b - p.c * q.c - p.d * q.d,
   p.a * q.b + p.b * q.a + p.c * q.d - p.d * q.c,
   p.a * q.c - p.b * q.d + p.c * q.a + p.d * q.b,
   p.a * q.d + p.b * q.c - p.c * q.b + p.d * q.a⟩

/-- Every part times a number. -/
def scale [Mul α] (q : Quaternion α) (k : α) : Quaternion α :=
  ⟨q.a * k, q.b * k, q.c * k, q.d * k⟩

/-- The square of the norm. -/
def normSquared [Add α] [Mul α] (q : Quaternion α) : α :=
  q.a * q.a + q.b * q.b + q.c * q.c + q.d * q.d

/-- The inverse: the conjugate over the square of the norm. -/
def inverse [Add α] [Mul α] [Div α] [Neg α] (q : Quaternion α) : Quaternion α :=
  let n := q.normSquared
  ⟨q.a / n, (-q.b) / n, (-q.c) / n, (-q.d) / n⟩

/-- Right division: `p` times the inverse of `q`. -/
def div [Add α] [Sub α] [Mul α] [Div α] [Neg α] (p q : Quaternion α) : Quaternion α :=
  p.mul q.inverse

/-! ## Functions of doubles -/

/-- The norm. -/
def norm (q : Quaternion Float) : Float := q.normSquared.sqrt

/-- The unit of the vector part and its length; a real quaternion gets the axis `i`. -/
def axis (q : Quaternion Float) : Quaternion Float × Float :=
  let len := (q.b * q.b + q.c * q.c + q.d * q.d).sqrt
  if len == 0 then (⟨0, 1, 0, 0⟩, 0) else (⟨0, q.b / len, q.c / len, q.d / len⟩, len)

/-- The exponential. -/
def exp (q : Quaternion Float) : Quaternion Float :=
  let (unit, theta) := q.axis
  let size := q.a.exp
  (ofReal (size * theta.cos)).add (unit.scale (size * theta.sin))

/-- The principal logarithm. -/
def ln (q : Quaternion Float) : Quaternion Float :=
  let norm := q.norm
  let unit := q.axis.1
  (ofReal norm.log).add (unit.scale (q.a / norm).acos)

end Quaternion

/-- An operand of arithmetic: a plain number or a quaternion. -/
inductive Numeric (α : Type) where
  | real (x : α)
  | quaternion (q : Quaternion α)
deriving DecidableEq, Repr

namespace Numeric

variable {α : Type}

/-- The operand as a quaternion. -/
def toQuaternion [OfNat α 0] : Numeric α → Quaternion α
  | real x => .ofReal x
  | quaternion q => q

/-- Whether the operand is a plain number. -/
def isReal : Numeric α → Bool
  | real _ => true
  | quaternion _ => false

/-- An operation on two operands: plain on two numbers, on quaternions otherwise. -/
def promoting [OfNat α 0] (onReals : α → α → α)
    (onQuaternions : Quaternion α → Quaternion α → Quaternion α) : Numeric α → Numeric α → Numeric α
  | real x, real y => real (onReals x y)
  | x, y => quaternion (onQuaternions x.toQuaternion y.toQuaternion)

/-- The sum. -/
def add [OfNat α 0] [Add α] : Numeric α → Numeric α → Numeric α :=
  promoting (· + ·) Quaternion.add

/-- The difference. -/
def sub [OfNat α 0] [Sub α] : Numeric α → Numeric α → Numeric α :=
  promoting (· - ·) Quaternion.sub

/-- The product. -/
def mul [OfNat α 0] [Add α] [Sub α] [Mul α] : Numeric α → Numeric α → Numeric α :=
  promoting (· * ·) Quaternion.mul

/-- The quotient. -/
def div [OfNat α 0] [Add α] [Sub α] [Mul α] [Div α] [Neg α] :
    Numeric α → Numeric α → Numeric α :=
  promoting (· / ·) Quaternion.div

/-- The sum of a row of operands. -/
def sum [OfNat α 0] [Add α] (xs : List (Numeric α)) : Numeric α :=
  xs.foldl add (real 0)

/-- The product of a row of operands. -/
def product [OfNat α 0] [OfNat α 1] [Add α] [Sub α] [Mul α] (xs : List (Numeric α)) : Numeric α :=
  xs.foldl mul (real 1)

/-- The first operand less all others, or its negative when it stands alone. -/
def difference [OfNat α 0] [OfNat α 1] [Sub α] [Mul α] [Neg α] (x : Numeric α) :
    List (Numeric α) → Numeric α
  | [] =>
    match x with
    | real x => real (-x)
    | quaternion q => quaternion (q.scale (-1))
  | xs => xs.foldl sub x

/-- The first operand divided by all others in turn, or its inverse when it stands alone. -/
def quotient [OfNat α 0] [OfNat α 1] [Add α] [Sub α] [Mul α] [Div α] [Neg α] (x : Numeric α) :
    List (Numeric α) → Numeric α
  | [] =>
    match x with
    | real x => real (1 / x)
    | quaternion q => quaternion q.inverse
  | xs => xs.foldl div x

end Numeric

end Lisplet
