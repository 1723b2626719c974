import Lisplet.Number.Layout
import Lisplet.Text.Words
/-!
# Reading numbers

A numeral is an optional sign, digits with an optional point, and an optional exponent; a digit is
needed on one side of the point. It is read as the nearest double. A text that is handed over as a
number may also be blank (zero), an infinity by name, or an integer in base sixteen, eight or two;
anything else is no number.
-/
namespace Lisplet.Number

/-- The parts of a numeral: its sign, the digits before and behind the point, and its exponent. -/
structure Numeral where
  negative : Bool
  whole : List Char
  fraction : List Char
  exponent : Int
deriving DecidableEq, Repr

/-- Splits off an optional sign. -/
def splitSign : List Char → Bool × List Char
  | '-' :: cs => (true, cs)
  | '+' :: cs => (false, cs)
  | cs => (false, cs)

/-- Splits off a run of digits. -/
def splitDigits (cs : List Char) : List Char × List Char :=
  (cs.takeWhile Char.isDigit, cs.dropWhile Char.isDigit)

/-- Reads what may follow the digits: nothing, or a marked exponent that ends the text. -/
def exponent? : List Char → Option Int
  | [] => some 0
  | c :: cs =>
    if c = 'e' ∨ c = 'E' then
      let (negative, digits) := splitSign cs
      if digits.isEmpty || !digits.all Char.isDigit then none
      else some (if negative then -Int.ofNat (readDigits digits) else readDigits digits)
    else none

/-- Reads a numeral, which must be the whole text. -/
def Numeral.parse? (cs : List Char) : Option Numeral :=
  let (negative, body) := splitSign cs
  let (whole, rest) := splitDigits body
  let (fraction, rest) :=
    match rest with
    | '.' :: more => splitDigits more
    | _ => ([], rest)
  if whole.isEmpty && fraction.isEmpty then none
  else (exponent? rest).map fun e => ⟨negative, whole, fraction, e⟩

/-- Whether a word is a numeral. -/
def isNumeral (cs : List Char) : Bool := (Numeral.parse? cs).isSome

/-- The double nearest to `± digits * 10 ^ exponent`. Far outside the range of doubles the answer is
known without computing the power. -/
def ofDecimal (negative : Bool) (digits : List Char) (exponent : Int) : Float :=
  let n := readDigits digits
  let size := digits.length + exponent
  if n = 0 then ofMagnitude negative 0
  else if exponent > 400 then ofMagnitude negative infinityBits
  else if size < -400 then ofMagnitude negative 0
  else ofRatio negative (n * tenTo exponent.toNat) (tenTo (-exponent).toNat)

/-- The double a numeral denotes. -/
def Numeral.toFloat (n : Numeral) : Float :=
  ofDecimal n.negative (n.whole ++ n.fraction) (n.exponent - n.fraction.length)

/-- The value of a digit up to `f`. -/
def digit? (c : Char) : Option Nat :=
  if c.isDigit then some (c.toNat - 48)
  else if 'a' ≤ c ∧ c ≤ 'f' then some (c.toNat - 87)
  else if 'A' ≤ c ∧ c ≤ 'F' then some (c.toNat - 55)
  else none

/-- The value of a row of digits of a base; there must be one. -/
def inBase? (base : Nat) (cs : List Char) : Option Nat :=
  if cs.isEmpty then none
  else cs.foldl (fun n? c => do
    let n ← n?
    let d ← digit? c
    if d < base then some (base * n + d) else none) (some 0)

/-- The base a leading zero and a letter announce. -/
def base? (c : Char) : Option Nat :=
  if c = 'x' ∨ c = 'X' then some 16
  else if c = 'o' ∨ c = 'O' then some 8
  else if c = 'b' ∨ c = 'B' then some 2
  else none

/-- The infinity a text names. -/
def namedInfinity? (cs : List Char) : Option Float :=
  let (negative, name) := splitSign cs
  if name == Text.Word.infinity then some (ofMagnitude negative infinityBits) else none

/-- The integer a text denotes in an announced base. -/
def basedInteger? : List Char → Option Float
  | '0' :: c :: digits => do
    let base ← base? c
    let n ← inBase? base digits
    some (ofRatio false n 1)
  | _ => none

/-- The number a text denotes; a text that denotes none gives the value that is no number. -/
def ofText (text : String) : Float :=
  let cs := Text.trim text.toList
  if cs.isEmpty then ofMagnitude false 0
  else match Numeral.parse? cs with
    | some n => n.toFloat
    | none => (namedInfinity? cs <|> basedInteger? cs).getD nan

end Lisplet.Number
