import MinerInfo.Hash

/-! Written hexadecimal reads back. A written digit is one byte on the wire and has the value it was written for, and
a byte is put together again from the values of its two digits. For a hash the reversal of the written form is undone
as well. -/

namespace MinerInfo

namespace Hex

theorem digit_of_lt : ∀ n < 16, String.utf8EncodeChar (digit n) = [(digit n).toUInt8] ∧
    value? (digit n).toUInt8 = some (UInt8.ofNat n) := by
  decide

/-- The values of the two digits of a byte. -/
def halves (byte : UInt8) : List UInt8 := [UInt8.ofNat (byte.toNat / 16), UInt8.ofNat (byte.toNat % 16)]

theorem utf8_digits (byte : UInt8) :
    Text.utf8 (digits byte) = [(digit (byte.toNat / 16)).toUInt8, (digit (byte.toNat % 16)).toUInt8] := by
  have hhigh := (digit_of_lt (byte.toNat / 16) (by have := byte.toNat_lt; omega)).1
  have hlow := (digit_of_lt (byte.toNat % 16) (Nat.mod_lt _ (by decide))).1
  simp only [digits, Text.utf8_cons, Text.utf8_nil, hhigh, hlow, List.append_nil, List.cons_append,
    List.nil_append]

theorem length_utf8_encode (bytes : Bytes) : (encode bytes).utf8.length = 2 * bytes.length := by
  induction bytes with
  | nil => rfl
  | cons byte bytes ih =>
      rw [encode_cons, Text.utf8_append, utf8_digits, List.length_append, ih]
      simp only [List.length_cons, List.length_nil]
      omega

theorem values_encode (bytes : Bytes) (index : Nat) :
    values index (encode bytes).utf8 = .ok (bytes.flatMap halves) := by
  induction bytes generalizing index with
  | nil => rfl
  | cons byte bytes ih =>
      have hhigh := (digit_of_lt (byte.toNat / 16) (by have := byte.toNat_lt; omega)).2
      have hlow := (digit_of_lt (byte.toNat % 16) (Nat.mod_lt _ (by decide))).2
      rw [encode_cons, Text.utf8_append, utf8_digits]
      simp only [List.cons_append, List.nil_append, values, hhigh, hlow, ih]
      rfl

theorem joined_halves (bytes : Bytes) : joined (bytes.flatMap halves) = bytes := by
  induction bytes with
  | nil => rfl
  | cons byte bytes ih =>
      have hbyte : UInt8.ofNat (byte.toNat / 16) * 16 + UInt8.ofNat (byte.toNat % 16) = byte := by
        apply UInt8.toNat_inj.1
        have := byte.toNat_lt
        simp only [UInt8.toNat_add, UInt8.toNat_mul, UInt8.toNat_ofNat', UInt8.reduceToNat]
        omega
      rw [List.flatMap_cons, halves, List.cons_append, List.cons_append, List.nil_append, joined, ih, hbyte]

/-- A byte string is read back from its digits. -/
theorem decode_encode (bytes : Bytes) : decode (encode bytes) = .ok bytes := by
  rw [decode, length_utf8_encode, if_neg (by omega), values_encode]
  exact congrArg Except.ok (joined_halves bytes)

theorem encode_injective : Function.Injective encode := by
  intro bytes bytes' h
  have hread := decode_encode bytes
  rw [h, decode_encode, Except.ok.injEq] at hread
  exact hread.symm

theorem decodeExactly_encode (bytes : Bytes) : decodeExactly bytes.length (encode bytes) = .ok bytes := by
  rw [decodeExactly, length_utf8_encode, if_neg (by omega), if_neg (not_not_intro rfl), values_encode]
  exact congrArg Except.ok (joined_halves bytes)

end Hex

theorem Hash.ofDisplayHex_of_ok {t : Text} {bytes : Bytes} (h : Hex.decodeExactly size t = .ok bytes) :
    ∃ x, ofDisplayHex t = .ok x ∧ x.bytes = bytes.reverse := by
  rw [ofDisplayHex]
  split
  · simp_all
  · rename_i bytes' h'
    rw [h] at h'
    cases h'
    exact ⟨_, rfl, rfl⟩

/-- A hash is read back from its display form. -/
theorem Hash.ofDisplayHex_displayHex (h : Hash) : ofDisplayHex h.displayHex = .ok h := by
  have hlen : h.bytes.reverse.length = size := by rw [List.length_reverse, h.length_bytes, size]
  have hdecode : Hex.decodeExactly size h.displayHex = .ok h.bytes.reverse := by
    rw [displayHex, ← hlen, Hex.decodeExactly_encode]
  obtain ⟨x, hx, hbytes⟩ := ofDisplayHex_of_ok hdecode
  rw [List.reverse_reverse] at hbytes
  rw [hx, Hash.ext hbytes]

end MinerInfo
