import Lisplet.Number.Shortest
import Lisplet.Text.Words
/-!
# Numbers as text

A number is written with its shortest decimal, in one of two layouts. The brief layout turns to an
exponent from `10 ^ 21` up and below `10 ^ -6`, and spells the special values `NaN` and `Infinity`,
with no sign on zero. The plain layout never has an exponent: it removes the one the brief layout
wrote (`withoutExponent`), keeps the sign of zero and spells `inf`.
-/
namespace Lisplet.Number

/-- The digits of a natural number. -/
def digitsOf (n : Nat) : List Char := Nat.toDigits 10 n

/-- The digits with the point moved so that `point` of them stand before it, with an exponent when
the point is too far away. -/
def layout (digits : List Char) (point : Int) : List Char :=
  if digits.length ≤ point ∧ point ≤ 21 then
    digits ++ List.replicate (point.toNat - digits.length) '0'
  else if 0 < point ∧ point ≤ 21 then
    digits.take point.toNat ++ '.' :: digits.drop point.toNat
  else if -6 < point ∧ point ≤ 0 then
    '0' :: '.' :: (List.replicate (-point).toNat '0' ++ digits)
  else
    let power := point - 1
    digits.take 1 ++ (if digits.length ≤ 1 then [] else '.' :: digits.drop 1) ++
      'e' :: (if power < 0 then '-' else '+') :: digitsOf power.natAbs

/-- A finite double without its sign, in the brief layout. -/
def magnitudeText (m : Nat) (q : Int) : List Char :=
  if m = 0 then ['0']
  else
    let d := shortest m q
    let digits := digitsOf d.digits
    layout digits (digits.length + d.exponent)

/-- The value of a row of decimal digits. -/
def readDigits (cs : List Char) : Nat :=
  cs.foldl (fun n c => 10 * n + (c.toNat - 48)) 0

/-- The value of a row of decimal digits behind an optional sign. -/
def readSigned : List Char → Int
  | '-' :: cs => -Int.ofNat (readDigits cs)
  | '+' :: cs => Int.ofNat (readDigits cs)
  | cs => Int.ofNat (readDigits cs)

/-- Writes a decimal with an exponent as the same decimal without one. -/
def withoutExponent (text : List Char) : List Char :=
  let mantissa := text.takeWhile (· != 'e')
  let exponent := readSigned ((text.dropWhile (· != 'e')).drop 1)
  let whole := mantissa.takeWhile (· != '.')
  let fraction := (mantissa.dropWhile (· != '.')).drop 1
  let digits := whole ++ fraction
  let point := whole.length + exponent
  if point ≤ 0 then '0' :: '.' :: (List.replicate (-point).toNat '0' ++ digits)
  else if digits.length ≤ point then
    digits ++ List.replicate (point.toNat - digits.length) '0'
  else digits.take point.toNat ++ '.' :: digits.drop point.toNat

/-- A finite double without its sign, in the plain layout. -/
def magnitudePlain (m : Nat) (q : Int) : List Char :=
  let text := magnitudeText m q
  if text.contains 'e' then withoutExponent text else text

/-- A minus sign in front of a negative number. -/
def signed (negative : Bool) (text : List Char) : List Char :=
  if negative then '-' :: text else text

/-- The brief layout: an exponent for what is very large or very small, and no sign on zero. -/
def brief (x : Float) : String :=
  match shape x with
  | .nan => "NaN"
  | .infinite negative => String.ofList (signed negative Text.Word.infinity)
  | .finite negative m q => String.ofList (signed (negative && m != 0) (magnitudeText m q))

/-- The plain layout: never an exponent, and a sign also on the negative zero. -/
def plain (x : Float) : String :=
  match shape x with
  | .nan => "NaN"
  | .infinite negative => String.ofList (signed negative Text.Word.inf)
  | .finite negative m q => String.ofList (signed negative (magnitudePlain m q))

end Lisplet.Number
