/-!
# Bytes as text

Bytes are decoded as UTF-8. Whatever is malformed becomes the replacement character: one for each
longest run of bytes that begins a character and cannot be completed, and one for every byte that
begins none.
-/
namespace Lisplet.Text

/-- A character some bytes of which are still missing: how many, what range the next one has to lie
in, and the bits read so far. -/
structure Unfinished where
  missing : Nat
  low : Nat
  high : Nat
  bits : Nat
deriving DecidableEq, Repr

/-- What replaces malformed bytes. -/
def replacement : Char := Char.ofNat 0xFFFD

/-- The characters a byte completes at the start of a character, and what it leaves unfinished. -/
def decodeFirst (b : Nat) : List Char × Option Unfinished :=
  if b < 0x80 then ([Char.ofNat b], none)
  else if 0xC2 ≤ b ∧ b ≤ 0xDF then ([], some ⟨1, 0x80, 0xBF, b % 32⟩)
  else if b = 0xE0 then ([], some ⟨2, 0xA0, 0xBF, b % 16⟩)
  else if b = 0xED then ([], some ⟨2, 0x80, 0x9F, b % 16⟩)
  else if 0xE1 ≤ b ∧ b ≤ 0xEF then ([], some ⟨2, 0x80, 0xBF, b % 16⟩)
  else if b = 0xF0 then ([], some ⟨3, 0x90, 0xBF, b % 8⟩)
  else if b = 0xF4 then ([], some ⟨3, 0x80, 0x8F, b % 8⟩)
  else if 0xF1 ≤ b ∧ b ≤ 0xF3 then ([], some ⟨3, 0x80, 0xBF, b % 8⟩)
  else ([replacement], none)

/-- The characters a byte completes, and what it leaves unfinished. -/
def decodeByte (u : Option Unfinished) (b : Nat) : List Char × Option Unfinished :=
  match u with
  | none => decodeFirst b
  | some u =>
    if u.low ≤ b ∧ b ≤ u.high then
      let bits := u.bits * 64 + b % 64
      if u.missing ≤ 1 then ([Char.ofNat bits], none)
      else ([], some ⟨u.missing - 1, 0x80, 0xBF, bits⟩)
    else
      let (cs, u') := decodeFirst b
      (replacement :: cs, u')

/-- The characters that bytes complete behind an unfinished one, and what they leave unfinished. -/
def decodeBytes (u : Option Unfinished) : List UInt8 → List Char × Option Unfinished
  | [] => ([], u)
  | b :: bs =>
    let (cs, u') := decodeByte u b.toNat
    let (more, u'') := decodeBytes u' bs
    (cs ++ more, u'')

/-- What stands for a character whose bytes do not come any more. -/
def decodeEnd (u : Option Unfinished) : List Char := if u.isSome then [replacement] else []

/-- The text of bytes. -/
def decode (bytes : List UInt8) : List Char :=
  let (cs, u) := decodeBytes none bytes
  cs ++ decodeEnd u

end Lisplet.Text
