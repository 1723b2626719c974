import Lisplet.Text.Utf8
/-!
# Decoding piece by piece

Bytes may be decoded in pieces, cut anywhere: what one piece leaves unfinished is handed on to the next one, and the texts of
the pieces make up the text of all bytes (`decodeBytes_append`). Of bytes that encode a text nothing is replaced: they are
decoded to this text (`decode_toByteArray`).
-/
namespace Lisplet.Text

theorem decodeBytes_cons (u : Option Unfinished) (b : UInt8) (bs : List UInt8) :
    decodeBytes u (b :: bs) =
      ((decodeByte u b.toNat).1 ++ (decodeBytes (decodeByte u b.toNat).2 bs).1,
        (decodeBytes (decodeByte u b.toNat).2 bs).2) := rfl

/-- Bytes in two pieces. -/
theorem decodeBytes_append (u : Option Unfinished) (front rest : List UInt8) :
    decodeBytes u (front ++ rest) =
      ((decodeBytes u front).1 ++ (decodeBytes (decodeBytes u front).2 rest).1,
        (decodeBytes (decodeBytes u front).2 rest).2) := by
  induction front generalizing u with
  | nil => rfl
  | cons b front ih => rw [List.cons_append, decodeBytes_cons, ih, decodeBytes_cons, List.append_assoc]

/-! ## Bytes of a character -/

/-- The first of two bytes. -/
theorem decodeFirst_two {x : Nat} (hlow : 2 ≤ x) (hhigh : x < 32) :
    decodeFirst (x + 192) = ([], some ⟨1, 0x80, 0xBF, x⟩) := by
  have hbits : (x + 192) % 32 = x := by omega
  rw [decodeFirst, if_neg (by omega), if_pos (by omega), hbits]

/-- The first of three bytes. The range of the second keeps out characters that two bytes can hold, and surrogates. -/
theorem decodeFirst_three {x : Nat} (hx : x < 16) :
    decodeFirst (x + 224) = ([], some ⟨2, if x = 0 then 0xA0 else 0x80, if x = 13 then 0x9F else 0xBF, x⟩) := by
  unfold decodeFirst
  grind

/-- The first of four bytes. The range of the second keeps out characters that three bytes can hold, and what is beyond the
last character. -/
theorem decodeFirst_four {x : Nat} (hx : x ≤ 4) :
    decodeFirst (x + 240) = ([], some ⟨3, if x = 0 then 0x90 else 0x80, if x = 4 then 0x8F else 0xBF, x⟩) := by
  unfold decodeFirst
  grind

/-- A byte that begins a character. -/
theorem decodeBytes_first {n : Nat} {u : Unfinished} (hn : n < 256) (h : decodeFirst n = ([], some u))
    (bs : List UInt8) : decodeBytes none (UInt8.ofNat n :: bs) = decodeBytes (some u) bs := by
  have hbyte : (UInt8.ofNat n).toNat = n := UInt8.toNat_ofNat_of_lt hn
  rw [decodeBytes_cons, hbyte, decodeByte, h]
  rfl

section Tail

variable {low high bits d : Nat} (hd : d < 64) (hlow : low ≤ d + 128) (hhigh : d + 128 ≤ high) (bs : List UInt8)
include hd hlow hhigh

/-- A byte that goes on with a character brings six more bits of it. -/
theorem decodeByte_tail (missing : Nat) :
    decodeByte (some ⟨missing, low, high, bits⟩) (UInt8.ofNat (d + 128)).toNat =
      if missing ≤ 1 then ([Char.ofNat (bits * 64 + d)], none)
      else ([], some ⟨missing - 1, 0x80, 0xBF, bits * 64 + d⟩) := by
  have hbyte : (UInt8.ofNat (d + 128)).toNat = d + 128 := UInt8.toNat_ofNat_of_lt (by omega : d + 128 < 256)
  have hbits : (d + 128) % 64 = d := by omega
  rw [hbyte, decodeByte, if_pos ⟨hlow, hhigh⟩, hbits]

/-- The last byte of a character. -/
theorem decodeBytes_last : decodeBytes (some ⟨1, low, high, bits⟩) (UInt8.ofNat (d + 128) :: bs) =
    (Char.ofNat (bits * 64 + d) :: (decodeBytes none bs).1, (decodeBytes none bs).2) := by
  rw [decodeBytes_cons, decodeByte_tail hd hlow hhigh, if_pos (Nat.le_refl 1)]
  rfl

/-- A byte with which a character is not finished yet. -/
theorem decodeBytes_more (n : Nat) : decodeBytes (some ⟨n + 2, low, high, bits⟩) (UInt8.ofNat (d + 128) :: bs) =
    decodeBytes (some ⟨n + 1, 0x80, 0xBF, bits * 64 + d⟩) bs := by
  rw [decodeBytes_cons, decodeByte_tail hd hlow hhigh, if_neg (by omega)]
  rfl

end Tail

/-! ## Encoded text -/

/-- The bytes of a character are decoded to this character. -/
theorem decodeBytes_character (c : Char) (bs : List UInt8) :
    decodeBytes none (String.utf8EncodeChar c ++ bs) = (c :: (decodeBytes none bs).1, (decodeBytes none bs).2) := by
  have hvalid : c.val.toNat < 0xD800 ∨ 0xDFFF < c.val.toNat ∧ c.val.toNat < 0x110000 := c.valid
  have hc : Char.ofNat c.val.toNat = c := Char.ofNat_toNat c
  unfold String.utf8EncodeChar
  -- One case for each number of bytes: what the bytes carry is put together to the code of the character again.
  generalize c.val.toNat = v at hvalid hc
  dsimp only
  split
  case isTrue =>
    have hbyte : (UInt8.ofNat v).toNat = v := UInt8.toNat_ofNat_of_lt (by omega : v < 256)
    rw [List.singleton_append, decodeBytes_cons, hbyte, decodeByte, decodeFirst, if_pos (by omega), hc]
    rfl
  split
  case isTrue =>
    have hbits : v / 64 % 32 * 64 + v % 64 = v := by omega
    rw [List.cons_append, List.singleton_append, decodeBytes_first (by omega) (decodeFirst_two (by omega) (by omega)),
      decodeBytes_last (by omega) (by omega) (by omega), hbits, hc]
  split
  case isTrue =>
    have hbits : (v / 4096 % 16 * 64 + v / 64 % 64) * 64 + v % 64 = v := by omega
    rw [List.cons_append, List.cons_append, List.singleton_append,
      decodeBytes_first (by omega) (decodeFirst_three (by omega)),
      decodeBytes_more (by omega) (by split <;> omega) (by split <;> omega),
      decodeBytes_last (by omega) (by omega) (by omega), hbits, hc]
  case isFalse =>
    have hbits : ((v / 262144 % 8 * 64 + v / 4096 % 64) * 64 + v / 64 % 64) * 64 + v % 64 = v := by omega
    rw [List.cons_append, List.cons_append, List.cons_append, List.singleton_append,
      decodeBytes_first (by omega) (decodeFirst_four (by omega)),
      decodeBytes_more (by omega) (by split <;> omega) (by split <;> omega),
      decodeBytes_more (by omega) (by omega) (by omega),
      decodeBytes_last (by omega) (by omega) (by omega), hbits, hc]

theorem decodeBytes_encoded (cs : List Char) : decodeBytes none (cs.flatMap String.utf8EncodeChar) = (cs, none) := by
  induction cs with
  | nil => rfl
  | cons c cs ih => rw [List.flatMap_cons, decodeBytes_character, ih]

/-- The bytes of a text are decoded to this text. -/
theorem decode_toByteArray (s : String) : decode s.toByteArray.data.toList = s.toList := by
  have hbytes : s.toByteArray.data.toList = s.toList.flatMap String.utf8EncodeChar := by
    rw [← String.utf8Encode_toList, List.utf8Encode, List.data_toByteArray, List.toList_toArray]
  rw [hbytes, decode, decodeBytes_encoded]
  exact List.append_nil s.toList

end Lisplet.Text
