import MinerInfo.Proofs.HexCase

/-! The display form of a hash. Its digits are those of the bytes in reverse, the two of each byte in their order, and
it does not matter whether a byte's digits are put behind or in front of what is there. Texts of sixty-four digits are
read, as the hash whose display form they are when their letters are made small, and no other text is. -/

namespace MinerInfo

namespace Hex

/-- The digits of both cases. -/
def allDigits : Text := "0123456789abcdefABCDEF".toList

theorem mem_allDigits_ofNat : ∀ n < 128,
    (Char.ofNat n ∈ allDigits ↔ ∃ k < 16, lowerDigit (Char.ofNat n) = digit k) := by
  decide +kernel

theorem toNat_lt_of_mem_allDigits {c : Char} (h : c ∈ allDigits) : c.toNat < 128 := by
  have hall : (allDigits.all fun c => c.toNat < 128) = true := by decide
  exact of_decide_eq_true (List.all_eq_true.1 hall c h)

theorem mem_allDigits_iff {c : Char} : c ∈ allDigits ↔ ∃ k < 16, lowerDigit c = digit k := by
  have hsmall (h : c.toNat < 128) := mem_allDigits_ofNat c.toNat h
  rw [Char.ofNat_toNat] at hsmall
  constructor
  · intro hc
    exact (hsmall (toNat_lt_of_mem_allDigits hc)).1 hc
  · rintro ⟨k, hk, hdigit⟩
    exact (hsmall (toNat_lt_of_lowerDigit hk hdigit)).2 ⟨k, hk, hdigit⟩

theorem length_lower (t : Text) : (lower t).length = t.length := List.length_map ..

/-- A text of digits is, with its letters made small, the written form of the bytes that it spells two by two. -/
theorem exists_encode_eq_lower {t : Text} (hdigits : ∀ c ∈ t, c ∈ allDigits) (heven : t.length % 2 = 0) :
    ∃ bytes, lower t = encode bytes := by
  have hks : ∃ ks : List Nat, (∀ k ∈ ks, k < 16) ∧ lower t = ks.map digit := by
    clear heven
    induction t with
    | nil => exact ⟨[], by simp, rfl⟩
    | cons c t ih =>
        obtain ⟨hc, ht⟩ := List.forall_mem_cons.1 hdigits
        obtain ⟨k, hk, hdigit⟩ := mem_allDigits_iff.1 hc
        obtain ⟨ks, hks, hlower⟩ := ih ht
        refine ⟨k :: ks, List.forall_mem_cons.2 ⟨hk, hks⟩, ?_⟩
        rw [List.map_cons, ← hdigit, ← hlower]
        rfl
  obtain ⟨ks, hks, hlower⟩ := hks
  have hlen : ks.length = t.length := by rw [← length_lower t, hlower, List.length_map]
  exact ⟨joined (ks.map UInt8.ofNat), hlower.trans (encode_joined ks (hlen ▸ heven) hks).symm⟩

theorem mem_allDigits_of_lower {t : Text} {bytes : Bytes} (h : lower t = encode bytes) : ∀ c ∈ t, c ∈ allDigits := by
  intro c hc
  have hmem : lowerDigit c ∈ (nibbles bytes).map digit := by
    rw [← encode_eq_map_digit, ← h]
    exact List.mem_map_of_mem hc
  obtain ⟨k, hk, hdigit⟩ := List.mem_map.1 hmem
  exact mem_allDigits_iff.2 ⟨k, nibbles_lt hk, hdigit.symm⟩

theorem take_drop_encode {bytes : Bytes} {i : Nat} (h : i < bytes.length) :
    ((encode bytes).drop (2 * i)).take 2 = digits bytes[i] := by
  induction bytes generalizing i with
  | nil => exact absurd h (Nat.not_lt_zero i)
  | cons byte bytes ih =>
      cases i with
      | zero => rfl
      | succ i => exact ih (Nat.lt_of_succ_lt_succ h)

/-- Digits that are put in front of those already there. -/
theorem foldl_digits_append (bytes : Bytes) (t : Text) :
    bytes.foldl (fun t byte => digits byte ++ t) t = encode bytes.reverse ++ t := by
  induction bytes generalizing t with
  | nil => rfl
  | cons byte bytes ih =>
      rw [List.foldl_cons, ih, List.reverse_cons, encode_append, encode_cons, encode_nil, List.append_nil,
        List.append_assoc]

end Hex

namespace Hash

theorem displayHex_injective : Function.Injective displayHex := by
  intro g h heq
  exact Hash.ext (List.reverse_inj.1 (Hex.encode_injective heq))

theorem take_drop_displayHex {h : Hash} {i : Nat} {byte : UInt8} (hbyte : h.bytes[i]? = some byte) :
    (h.displayHex.drop (2 * (31 - i))).take 2 = Hex.digits byte := by
  obtain ⟨hi, hget⟩ := List.getElem?_eq_some_iff.1 hbyte
  have hlen := h.length_bytes
  have hplace : 31 - i < h.bytes.reverse.length := by
    rw [List.length_reverse]
    omega
  have hreverse : h.bytes.reverse[31 - i] = byte := by
    rw [List.getElem_reverse, ← hget]
    congr 1
    omega
  rw [displayHex, Hex.take_drop_encode hplace, hreverse]

/-- Sixty-four digits are the display form of some hash, up to the case of letters, and nothing else is. -/
theorem exists_displayHex_eq_lower_iff {t : Text} :
    (∃ h : Hash, Hex.lower t = h.displayHex) ↔ t.length = 64 ∧ ∀ c ∈ t, c ∈ Hex.allDigits := by
  constructor
  · rintro ⟨h, hlower⟩
    refine ⟨?_, Hex.mem_allDigits_of_lower hlower⟩
    rw [← Hex.length_lower, hlower, length_displayHex]
  · rintro ⟨hlen, hdigits⟩
    obtain ⟨bytes, hlower⟩ := Hex.exists_encode_eq_lower hdigits (by rw [hlen])
    have hbytes : bytes.reverse.length = 32 := by
      have := Hex.length_encode bytes
      rw [← hlower, Hex.length_lower, hlen] at this
      rw [List.length_reverse]
      omega
    refine ⟨⟨bytes.reverse, hbytes⟩, ?_⟩
    rw [displayHex, List.reverse_reverse, hlower]

/-- The display form is canonical. It is what is read as a hash, in letters of either case, and nothing else is read;
it has two digits for each byte, from the last byte to the first; and the text shown for a hash, which is put together
byte by byte, is that form, whether each byte's digits are added behind, from the last byte on, or in front, from the
first byte on. -/
theorem displayHex_is_canonical :
    (∀ (h : Hash) (t : Text), ofDisplayHex t = .ok h ↔ Hex.lower t = h.displayHex) ∧
    (∀ h : Hash, h.shown = h.displayHex ∧
      h.shown = h.bytes.reverse.foldl (fun t byte => t ++ Hex.digits byte) [] ∧
      h.shown = h.bytes.foldl (fun t byte => Hex.digits byte ++ t) []) ∧
    (∀ (h : Hash) (i : Nat) (byte : UInt8), h.bytes[i]? = some byte →
      (h.displayHex.drop (2 * (31 - i))).take 2 = Hex.digits byte) ∧
    (∀ h : Hash, ofDisplayHex h.displayHex = .ok h) ∧
    (∀ g h : Hash, g.displayHex = h.displayHex ↔ g = h) ∧
    (∀ t u : Text, Hex.lower t = Hex.lower u → ∀ h, ofDisplayHex t = .ok h ↔ ofDisplayHex u = .ok h) ∧
    (∀ t : Text, (∃ h, ofDisplayHex t = .ok h) ↔ t.length = 64 ∧ ∀ c ∈ t, c ∈ Hex.allDigits) := by
  refine ⟨fun h t => ofDisplayHex_eq_ok_iff, ?_, ?_, ofDisplayHex_displayHex, ?_, ?_, ?_⟩
  · intro h
    refine ⟨shown_eq_displayHex h, rfl, ?_⟩
    rw [shown_eq_displayHex, displayHex, Hex.foldl_digits_append, List.append_nil]
  · intro h i byte hbyte
    exact take_drop_displayHex hbyte
  · exact fun g h => displayHex_injective.eq_iff
  · intro t u hcase h
    rw [ofDisplayHex_eq_ok_iff, ofDisplayHex_eq_ok_iff, hcase]
  · intro t
    rw [← exists_displayHex_eq_lower_iff]
    exact exists_congr fun h => ofDisplayHex_eq_ok_iff

/-- A hash of which the first byte has two letters, read from two texts that differ in the case of their letters. -/
theorem displayHex_of_mixed_case :
    let h : Hash := ⟨0xab :: List.replicate 31 0x0c, rfl⟩
    let t : Text := (List.replicate 31 ['0', 'C']).flatten ++ ['a', 'B']
    let u : Text := (List.replicate 31 ['0', 'c']).flatten ++ ['A', 'b']
    h.bytes[0]? = some 0xab ∧ (h.displayHex.drop 62).take 2 = ['a', 'b'] ∧
      Hex.lower t = Hex.lower u ∧ ofDisplayHex t = .ok h ∧ ofDisplayHex u = .ok h := by
  intro h t u
  obtain ⟨hread, -, hplace, -, -, hcase, -⟩ := displayHex_is_canonical
  have hsame : Hex.lower t = Hex.lower u := by decide +kernel
  have ht := (hread h t).2 (by decide +kernel)
  exact ⟨rfl, (hplace h 0 0xab rfl).trans (by decide), hsame, ht, (hcase t u hsame h).1 ht⟩

end Hash

end MinerInfo
