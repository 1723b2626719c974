/-!
# Sixteen bit units

Columns and offsets count the sixteen bit units a text takes in UTF-16: one for a character of the
basic plane, two for any other. The text itself stays a list of characters; only counting and cutting
go by units. Main statements: the units of two texts add up (`units_append`), and a text takes
as many as it is encoded in (`length_codeUnits`).
-/
namespace Lisplet.Text

/-- The units one character takes. -/
def width (c : Char) : Nat := if c.toNat < 0x10000 then 1 else 2

/-- The units a text takes. -/
def units : List Char → Nat
  | [] => 0
  | c :: cs => width c + units cs

@[simp] theorem units_nil : units [] = 0 := rfl

@[simp] theorem units_cons (c : Char) (cs : List Char) : units (c :: cs) = width c + units cs := rfl

@[simp] theorem units_append (s t : List Char) : units (s ++ t) = units s + units t := by
  induction s with
  | nil => simp
  | cons c s ih => simp [ih, Nat.add_assoc]

/-- The units of one character: its code point, or two halves of ten bits each above their bases. -/
def charUnits (c : Char) : List UInt16 :=
  if c.toNat < 0x10000 then [UInt16.ofNat c.toNat]
  else [UInt16.ofNat (0xD800 + (c.toNat - 0x10000) / 0x400), UInt16.ofNat (0xDC00 + (c.toNat - 0x10000) % 0x400)]

/-- The units of a text. -/
def codeUnits (cs : List Char) : List UInt16 := cs.flatMap charUnits

theorem length_charUnits (c : Char) : (charUnits c).length = width c := by
  unfold charUnits width; split <;> rfl

/-- The number of units is the length of the text written out in them. -/
theorem length_codeUnits (cs : List Char) : (codeUnits cs).length = units cs := by
  induction cs with
  | nil => rfl
  | cons c cs ih => simpa [codeUnits, length_charUnits] using ih

/-! ## A character for each unit

A text may be cut anywhere between two units, also inside a character. To go through units as through characters, a half of a
character is stood for by a character beyond the basic plane, and any other unit by the character it is.
-/

/-- The character that stands for a unit. -/
def unitChar (u : UInt16) : Char :=
  if 0xD800 ≤ u.toNat ∧ u.toNat < 0xE000 then Char.ofNat (u.toNat + 0x2800) else Char.ofNat u.toNat

/-- The unit that a character stands for. -/
def charUnit (c : Char) : UInt16 := UInt16.ofNat (if c.toNat < 0x10000 then c.toNat else c.toNat - 0x2800)

end Lisplet.Text
