/-!
# Text between quotes

A string is written between double quotes. A quote, a backslash and the control characters are
escaped, the five usual ones by a letter and the others by four lower case hexadecimal digits;
everything else stands for itself.

A text in an error of the system is shown between single quotes, or between double quotes or backquotes
when it holds the others. Control characters, the backslash and the quote in use are escaped.
-/
namespace Lisplet.Text

/-- A hexadecimal digit, in lower case. -/
def hexDigit (n : Nat) : Char :=
  if n < 10 then Char.ofNat (48 + n) else Char.ofNat (87 + n)

/-- How one character is written inside quotes. -/
def escape (c : Char) : List Char :=
  if c = '"' then ['\\', '"']
  else if c = '\\' then ['\\', '\\']
  else if c = '\n' then ['\\', 'n']
  else if c = '\r' then ['\\', 'r']
  else if c = '\t' then ['\\', 't']
  else if c = '\x08' then ['\\', 'b']
  else if c = '\x0c' then ['\\', 'f']
  else if c.toNat < 0x20 then
    ['\\', 'u', '0', '0', hexDigit (c.toNat / 16), hexDigit (c.toNat % 16)]
  else [c]

/-- A text between quotes, escaped. -/
def quote (cs : List Char) : List Char :=
  '"' :: (cs.flatMap escape ++ ['"'])

/-- A string between quotes, escaped. -/
def quoted (s : String) : String := String.ofList (quote s.toList)

/-! ## In an error of the system -/

/-- The quote a text is shown between. -/
def inspectionQuote (cs : List Char) : Char :=
  if !cs.contains '\'' then '\''
  else if !cs.contains '"' then '"'
  else if !cs.contains '\x60' then '\x60'
  else '\''

/-- A hexadecimal digit, in upper case. -/
def upperHex (n : Nat) : Char := (Nat.digitChar n).toUpper

/-- A character between quotes. -/
def inspectChar (quote c : Char) : List Char :=
  if c = '\x08' then ['\\', 'b']
  else if c = '\t' then ['\\', 't']
  else if c = '\n' then ['\\', 'n']
  else if c = '\x0c' then ['\\', 'f']
  else if c = '\r' then ['\\', 'r']
  else if c = '\\' then ['\\', '\\']
  else if c = '\'' ∧ quote = '\'' then ['\\', '\'']
  else if c.toNat < 0x20 ∨ (0x7f ≤ c.toNat ∧ c.toNat ≤ 0x9f) then
    ['\\', 'x', upperHex (c.toNat / 16), upperHex (c.toNat % 16)]
  else [c]

/-- A text between quotes. -/
def inspected (s : String) : String :=
  let quote := inspectionQuote s.toList
  String.ofList (quote :: s.toList.flatMap (inspectChar quote) ++ [quote])

end Lisplet.Text
