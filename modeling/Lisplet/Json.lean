import Lisplet.Number.Numeral
import Lisplet.Text.Quoted
import Lisplet.Text.Words
/-!
# JSON

The data format of the configuration file and of dumped terms. Reading accepts the standard grammar
and nothing else; of two fields of one name the later counts. Writing indents by two spaces; a number
that is not finite is written as null, and a zero without its sign.
-/
namespace Lisplet

/-- A JSON document; the fields of an object are in order. -/
inductive Json where
  | null
  | boolean (b : Bool)
  | number (x : Float)
  | string (s : String)
  | array (items : List Json)
  | object (fields : List (String × Json))
deriving Inhabited

namespace Json

/-- The value of a field; of two fields of one name the later counts. -/
def field? (fields : List (String × Json)) (name : String) : Option Json :=
  fields.reverse.lookup name

/-! ## Writing -/

/-- A line break and the indentation of a depth. -/
def newline (depth : Nat) : List Char := '\n' :: List.replicate (2 * depth) ' '

/-- The text of a number; what is not finite has none. -/
def writeNumber (x : Float) : List Char :=
  match Number.shape x with
  | .finite _ _ _ => (Number.brief x).toList
  | _ => Text.Word.null

mutual

/-- Writes a document at a depth. -/
def write (depth : Nat) : Json → List Char
  | null => Text.Word.null
  | boolean b => Text.Word.boolean b
  | number x => writeNumber x
  | string s => Text.quote s.toList
  | array [] => ['[', ']']
  | array items => '[' :: (writeItems (depth + 1) items ++ newline depth ++ [']'])
  | object [] => ['\x7b', '\x7d']
  | object fields => '\x7b' :: (writeFields (depth + 1) fields ++ newline depth ++ ['\x7d'])
termination_by structural j => j

/-- Writes the items of an array, each on a line of its own. -/
def writeItems (depth : Nat) : List Json → List Char
  | [] => []
  | [j] => newline depth ++ write depth j
  | j :: more => newline depth ++ write depth j ++ ',' :: writeItems depth more
termination_by structural items => items

/-- Writes the fields of an object, each on a line of its own. -/
def writeFields (depth : Nat) : List (String × Json) → List Char
  | [] => []
  | [field] => newline depth ++ writeField depth field
  | field :: fields => newline depth ++ writeField depth field ++ ',' :: writeFields depth fields
termination_by structural fields => fields

/-- Writes a field. -/
def writeField (depth : Nat) : String × Json → List Char
  | (name, j) => Text.quote name.toList ++ ':' :: ' ' :: write depth j
termination_by structural field => field

end

/-- A document as indented text. -/
def text (j : Json) : String := String.ofList (write 0 j)

/-! ## Reading -/

/-- Drops white space. -/
def skip (cs : List Char) : List Char :=
  cs.dropWhile fun c => c == ' ' || c == '\t' || c == '\n' || c == '\r'

/-- The value of four hexadecimal digits. -/
def hex4? (a b c d : Char) : Option Nat := do
  return (((← Number.digit? a) * 16 + (← Number.digit? b)) * 16 + (← Number.digit? c)) * 16 +
    (← Number.digit? d)

/-- The character of an escape letter. -/
def escaped? (c : Char) : Option Char :=
  if c = '"' ∨ c = '\\' ∨ c = '/' then some c
  else if c = 'b' then some '\x08'
  else if c = 'f' then some '\x0c'
  else if c = 'n' then some '\n'
  else if c = 'r' then some '\r'
  else if c = 't' then some '\t'
  else none

/-- Whether a unit is the first half of a pair. -/
def isHigh (n : Nat) : Bool := 0xD800 ≤ n && n < 0xDC00

/-- Whether a unit is the second half of a pair. -/
def isLow (n : Nat) : Bool := 0xDC00 ≤ n && n < 0xE000

/-- The text of code points and units; a pair of halves makes one character, and a half that stands
alone is replaced. -/
def ofUnits : List Nat → List Char
  | [] => []
  | [n] => [if isHigh n || isLow n then Char.ofNat 0xFFFD else Char.ofNat n]
  | n :: m :: rest =>
    if isHigh n && isLow m then
      Char.ofNat (0x10000 + (n - 0xD800) * 0x400 + (m - 0xDC00)) :: ofUnits rest
    else
      (if isHigh n || isLow n then Char.ofNat 0xFFFD else Char.ofNat n) :: ofUnits (m :: rest)

/-- Reads a string behind its opening quote: its code points and units, and what follows the closing
quote. -/
def readUnits : List Char → Option (List Nat × List Char)
  | [] => none
  | '"' :: rest => some ([], rest)
  | '\\' :: 'u' :: a :: b :: c :: d :: rest => do
    let n ← hex4? a b c d
    let (s, r) ← readUnits rest
    return (n :: s, r)
  | '\\' :: e :: rest => do
    let c ← escaped? e
    let (s, r) ← readUnits rest
    return (c.toNat :: s, r)
  | c :: rest => do
    if c.toNat < 0x20 || c == '\\' then none
    else
      let (s, r) ← readUnits rest
      return (c.toNat :: s, r)
termination_by structural cs => cs

/-- Reads a string behind its opening quote: the text and what follows the closing quote. -/
def readString (cs : List Char) : Option (List Char × List Char) :=
  (readUnits cs).map fun (units, rest) => (ofUnits units, rest)

/-- Reads a number: digits without a needless zero in front, a fraction and an exponent. -/
def readNumber (cs : List Char) : Option (Float × List Char) := do
  let (negative, body) := match cs with
    | '-' :: rest => (true, rest)
    | _ => (false, cs)
  let (whole, rest) := Number.splitDigits body
  if whole.isEmpty || (whole.length > 1 && whole.head? == some '0') then none
  else
    let (fraction, rest) ← match rest with
      | '.' :: more =>
        let (digits, rest') := Number.splitDigits more
        if digits.isEmpty then none else some (digits, rest')
      | _ => some ([], rest)
    let (exponent, rest) ← match rest with
      | c :: more =>
        if c == 'e' || c == 'E' then
          let (down, digits) := Number.splitSign more
          let (digits, rest') := Number.splitDigits digits
          if digits.isEmpty then none
          else
            let n := Int.ofNat (Number.readDigits digits)
            some (if down then -n else n, rest')
        else some (0, rest)
      | [] => some (0, rest)
    return (Number.Numeral.toFloat ⟨negative, whole, fraction, exponent⟩, rest)

mutual

/-- Reads a value, without white space in front; the depth of nesting is bounded by fuel. -/
def readValue : Nat → List Char → Option (Json × List Char)
  | 0, _ => none
  | n + 1, cs =>
    match cs with
    | 'n' :: 'u' :: 'l' :: 'l' :: rest => some (null, rest)
    | 't' :: 'r' :: 'u' :: 'e' :: rest => some (boolean true, rest)
    | 'f' :: 'a' :: 'l' :: 's' :: 'e' :: rest => some (boolean false, rest)
    | '"' :: rest => (readString rest).map fun (s, r) => (string (String.ofList s), r)
    | '[' :: rest =>
      match skip rest with
      | ']' :: rest' => some (array [], rest')
      | rest' => (readItems n rest').map fun (items, r) => (array items, r)
    | '\x7b' :: rest =>
      match skip rest with
      | '\x7d' :: rest' => some (object [], rest')
      | rest' => (readFields n rest').map fun (fields, r) => (object fields, r)
    | cs => (readNumber cs).map fun (x, r) => (number x, r)

/-- Reads the items of an array up to its end. -/
def readItems : Nat → List Char → Option (List Json × List Char)
  | 0, _ => none
  | n + 1, cs => do
    let (j, rest) ← readValue n (skip cs)
    match skip rest with
    | ']' :: rest' => return ([j], rest')
    | ',' :: rest' =>
      let (more, r) ← readItems n rest'
      return (j :: more, r)
    | _ => none

/-- Reads the fields of an object up to its end. -/
def readFields : Nat → List Char → Option (List (String × Json) × List Char)
  | 0, _ => none
  | n + 1, cs =>
    match skip cs with
    | '"' :: more => do
      let (name, rest) ← readString more
      match skip rest with
      | ':' :: rest' => do
        let (j, rest) ← readValue n (skip rest')
        match skip rest with
        | '\x7d' :: rest' => return ([(String.ofList name, j)], rest')
        | ',' :: rest' =>
          let (fields, r) ← readFields n rest'
          return ((String.ofList name, j) :: fields, r)
        | _ => none
      | _ => none
    | _ => none

end

/-- Reads a document, which must be the whole text. Every step uses up a character, so the length of
the text is fuel enough. -/
def parse? (source : String) : Option Json :=
  let cs := skip source.toList
  match readValue (2 * cs.length + 1) cs with
  | some (j, rest) => if (skip rest).isEmpty then some j else none
  | none => none

end Json

end Lisplet
