import MinerInfo.Proofs.HexForm

/-! Which texts are read as hexadecimal: the written forms of byte strings, with digits of either case, and no others.
A character outside ASCII is several bytes on the wire, of which the first is no digit. -/

namespace MinerInfo

namespace Hex

theorem value?_ofNat : ∀ n < 128, ∀ k < 16,
    (value? (UInt8.ofNat n) = some (UInt8.ofNat k) ↔ lowerDigit (Char.ofNat n) = digit k) := by
  decide +kernel

theorem value?_lt : ∀ n < 128, (value? (UInt8.ofNat n)).all (· < 16) = true := by
  decide +kernel

theorem digit_lt : ∀ n < 16, (digit n).toNat < 128 := by
  decide

theorem value?_of_le {byte : UInt8} (h : 128 ≤ byte.toNat) : value? byte = none := by
  simp only [value?, UInt8.le_iff_toNat_le, UInt8.reduceToNat]
  rw [if_neg (by omega), if_neg (by omega), if_neg (by omega)]

/-- The value of an ASCII character that is a digit in either case. -/
theorem value?_toUInt8 {c : Char} (h : c.toNat < 128) {v : UInt8} :
    value? c.toUInt8 = some v ↔ ∃ k < 16, lowerDigit c = digit k ∧ v = UInt8.ofNat k := by
  have hbyte : c.toUInt8 = UInt8.ofNat c.toNat := rfl
  have hchar : c = Char.ofNat c.toNat := (Char.ofNat_toNat c).symm
  constructor
  · intro hv
    have hlt := value?_lt c.toNat h
    rw [hbyte] at hv
    rw [hv, Option.all_some, decide_eq_true_eq, UInt8.lt_iff_toNat_lt] at hlt
    refine ⟨v.toNat, hlt, ?_, UInt8.ofNat_toNat.symm⟩
    rw [hchar]
    exact (value?_ofNat c.toNat h v.toNat hlt).1 (by rw [UInt8.ofNat_toNat, hv])
  · rintro ⟨k, hk, hdigit, rfl⟩
    rw [hbyte]
    exact (value?_ofNat c.toNat h k hk).2 (by rwa [← hchar])

theorem toNat_lt_of_lowerDigit {c : Char} {k : Nat} (hk : k < 16) (h : lowerDigit c = digit k) : c.toNat < 128 := by
  rw [lowerDigit] at h
  split at h
  · rename_i hc
    have hle : c.toNat ≤ 'F'.toNat := hc.2
    exact Nat.lt_of_le_of_lt hle (by decide)
  · rw [h]
    exact digit_lt k hk

theorem utf8EncodeChar_of_lt {c : Char} (h : c.toNat < 128) : String.utf8EncodeChar c = [c.toUInt8] := by
  rw [String.utf8EncodeChar]
  exact if_pos (Nat.le_of_lt_succ h)

theorem head_utf8EncodeChar {c : Char} (h : 128 ≤ c.toNat) :
    ∃ byte rest, String.utf8EncodeChar c = byte :: rest ∧ 128 ≤ byte.toNat := by
  have hvalid : c.val.toNat < 0xd800 ∨ 0xdfff < c.val.toNat ∧ c.val.toNat < 0x110000 := c.valid
  have hval : 128 ≤ c.val.toNat := h
  simp only [String.utf8EncodeChar]
  rw [if_neg (by omega)]
  -- the first of two bytes or more has its highest bit set
  split
  · exact ⟨_, _, rfl, by rw [UInt8.toNat_ofNat']; omega⟩
  · split
    · exact ⟨_, _, rfl, by rw [UInt8.toNat_ofNat']; omega⟩
    · exact ⟨_, _, rfl, by rw [UInt8.toNat_ofNat']; omega⟩

theorem values_cons_eq_ok_iff {byte : UInt8} {rest : Bytes} {index : Nat} {vs : List UInt8} :
    values index (byte :: rest) = .ok vs ↔
      ∃ v, value? byte = some v ∧ ∃ ws, values (index + 1) rest = .ok ws ∧ vs = v :: ws := by
  rw [values]
  cases value? byte with
  | none => simp
  | some v =>
      cases values (index + 1) rest with
      | error f => simp [Except.map]
      | ok ws => simp [Except.map, eq_comm]

theorem values_utf8_cons {c : Char} {t : Text} {index : Nat} {vs : List UInt8} :
    values index (Text.utf8 (c :: t)) = .ok vs ↔
      ∃ k < 16, lowerDigit c = digit k ∧ ∃ ws, values (index + 1) t.utf8 = .ok ws ∧ vs = UInt8.ofNat k :: ws := by
  rw [Text.utf8_cons]
  by_cases h : c.toNat < 128
  · rw [utf8EncodeChar_of_lt h, List.cons_append, List.nil_append, values_cons_eq_ok_iff]
    constructor
    · rintro ⟨v, hv, hrest⟩
      obtain ⟨k, hk, hdigit, rfl⟩ := (value?_toUInt8 h).1 hv
      exact ⟨k, hk, hdigit, hrest⟩
    · rintro ⟨k, hk, hdigit, hrest⟩
      exact ⟨UInt8.ofNat k, (value?_toUInt8 h).2 ⟨k, hk, hdigit, rfl⟩, hrest⟩
  · obtain ⟨byte, rest, hbytes, hle⟩ := head_utf8EncodeChar (Nat.not_lt.1 h)
    rw [hbytes, List.cons_append, values_cons_eq_ok_iff, value?_of_le hle]
    constructor
    · rintro ⟨v, hv, -⟩
      cases hv
    · rintro ⟨k, hk, hdigit, -⟩
      exact absurd (toNat_lt_of_lowerDigit hk hdigit) h

/-- The values of the digits of a text are those for which the digits are written. -/
theorem values_utf8_eq_ok_iff {t : Text} {index : Nat} {vs : List UInt8} :
    values index t.utf8 = .ok vs ↔
      ∃ ks : List Nat, (∀ k ∈ ks, k < 16) ∧ lower t = ks.map digit ∧ vs = ks.map UInt8.ofNat := by
  induction t generalizing index vs with
  | nil =>
      rw [Text.utf8_nil, values, lower, List.map_nil]
      constructor
      · intro h
        cases h
        exact ⟨[], by simp, rfl, rfl⟩
      · rintro ⟨ks, -, hks, rfl⟩
        rw [List.map_eq_nil_iff.1 hks.symm]
        rfl
  | cons c t ih =>
      rw [values_utf8_cons]
      constructor
      · rintro ⟨k, hk, hdigit, ws, hws, rfl⟩
        obtain ⟨ks, hks, hlower, rfl⟩ := ih.1 hws
        refine ⟨k :: ks, List.forall_mem_cons.2 ⟨hk, hks⟩, ?_, rfl⟩
        rw [List.map_cons, ← hlower, ← hdigit]
        rfl
      · rintro ⟨ks, hks, hlower, rfl⟩
        cases ks with
        | nil => cases hlower
        | cons k ks =>
            rw [lower, List.map_cons, List.map_cons, List.cons.injEq] at hlower
            obtain ⟨hk, hks⟩ := List.forall_mem_cons.1 hks
            exact ⟨k, hk, hlower.1, _, ih.2 ⟨ks, hks, hlower.2, rfl⟩, rfl⟩

/-- Digits in pairs are the written form of the bytes that are joined from their values. -/
theorem encode_joined : ∀ ks : List Nat, ks.length % 2 = 0 → (∀ k ∈ ks, k < 16) →
    encode (joined (ks.map UInt8.ofNat)) = ks.map digit
  | [], _, _ => rfl
  | [_], hlen, _ => by cases hlen
  | high :: low :: ks, hlen, hlt => by
      have hrest : encode (joined (ks.map UInt8.ofNat)) = ks.map digit := by
        apply encode_joined ks
        · rw [List.length_cons, List.length_cons] at hlen
          omega
        · intro k hk
          exact hlt k (List.mem_cons_of_mem _ (List.mem_cons_of_mem _ hk))
      have hhigh : high < 16 := hlt high List.mem_cons_self
      have hlow : low < 16 := hlt low (List.mem_cons_of_mem _ List.mem_cons_self)
      have hbyte : (UInt8.ofNat high * 16 + UInt8.ofNat low).toNat = 16 * high + low := by
        simp only [UInt8.toNat_add, UInt8.toNat_mul, UInt8.toNat_ofNat', UInt8.reduceToNat]
        omega
      simp only [List.map_cons, joined, encode_cons, digits, hbyte, hrest]
      rw [show (16 * high + low) / 16 = high by omega, show (16 * high + low) % 16 = low by omega]
      rfl

/-- The numbers below sixteen of which a byte string is made. -/
def nibbles (bytes : Bytes) : List Nat := bytes.flatMap fun byte => [byte.toNat / 16, byte.toNat % 16]

theorem encode_eq_map_digit (bytes : Bytes) : encode bytes = (nibbles bytes).map digit := by
  rw [encode, nibbles, List.map_flatMap]
  rfl

theorem nibbles_lt {bytes : Bytes} {k : Nat} (h : k ∈ nibbles bytes) : k < 16 := by
  obtain ⟨byte, -, hk⟩ := List.mem_flatMap.1 h
  have := byte.toNat_lt
  rw [List.mem_cons, List.mem_singleton] at hk
  omega

theorem map_ofNat_nibbles (bytes : Bytes) : (nibbles bytes).map UInt8.ofNat = bytes.flatMap halves := by
  rw [nibbles, List.map_flatMap]
  rfl

theorem values_eq_of_lower {t : Text} {bytes : Bytes} (h : lower t = encode bytes) :
    values 0 t.utf8 = .ok (bytes.flatMap halves) := by
  refine values_utf8_eq_ok_iff.2 ⟨nibbles bytes, fun k => nibbles_lt, ?_, (map_ofNat_nibbles bytes).symm⟩
  rw [h, encode_eq_map_digit]

theorem lower_eq_of_values {t : Text} {vs : List UInt8} (h : values 0 t.utf8 = .ok vs)
    (heven : t.utf8.length % 2 = 0) : lower t = encode (joined vs) := by
  rw [← length_of_values h] at heven
  obtain ⟨ks, hks, hlower, rfl⟩ := values_utf8_eq_ok_iff.1 h
  rw [List.length_map] at heven
  rw [hlower, encode_joined ks heven hks]

theorem length_utf8_of_lower {t : Text} {bytes : Bytes} (h : lower t = encode bytes) :
    t.utf8.length = 2 * bytes.length := by
  rw [← length_of_values (values_eq_of_lower h), length_of_values (values_encode bytes 0), length_utf8_encode]

theorem joined_values_eq_ok_iff {t : Text} {bytes : Bytes} (heven : t.utf8.length % 2 = 0) :
    (values 0 t.utf8).map joined = .ok bytes ↔ lower t = encode bytes := by
  constructor
  · intro h
    cases hv : values 0 t.utf8 with
    | error f =>
        rw [hv] at h
        cases h
    | ok vs =>
        rw [hv] at h
        cases h
        exact lower_eq_of_values hv heven
  · intro h
    rw [values_eq_of_lower h]
    exact congrArg Except.ok (joined_halves bytes)

/-- A text is read as bytes exactly if it is their written form, with letters of either case. -/
theorem decode_eq_ok_iff {t : Text} {bytes : Bytes} : decode t = .ok bytes ↔ lower t = encode bytes := by
  rw [decode]
  by_cases hodd : t.utf8.length % 2 = 1
  · rw [if_pos hodd]
    refine ⟨fun h => absurd h ok_ne_error.symm, fun h => ?_⟩
    have := length_utf8_of_lower h
    omega
  · rw [if_neg hodd]
    exact joined_values_eq_ok_iff (by omega)

theorem decodeExactly_eq_ok_iff {size : Nat} {t : Text} {bytes : Bytes} :
    decodeExactly size t = .ok bytes ↔ bytes.length = size ∧ lower t = encode bytes := by
  constructor
  · intro h
    refine ⟨length_of_decodeExactly h, ?_⟩
    rw [decodeExactly] at h
    split at h
    · cases h
    · split at h
      · cases h
      · exact (joined_values_eq_ok_iff (by omega)).1 h
  · rintro ⟨rfl, h⟩
    have hlen := length_utf8_of_lower h
    rw [decodeExactly, if_neg (by omega), if_neg (not_not_intro hlen)]
    exact (joined_values_eq_ok_iff (by omega)).2 h

end Hex

/-- A text is read as a hash exactly if it is its display form, with letters of either case. -/
theorem Hash.ofDisplayHex_eq_ok_iff {t : Text} {h : Hash} :
    ofDisplayHex t = .ok h ↔ Hex.lower t = h.displayHex := by
  have hlen : h.bytes.reverse.length = size := by rw [List.length_reverse, h.length_bytes, size]
  constructor
  · intro hread
    have hdecode : Hex.decodeExactly size t = .ok h.bytes.reverse := by
      rw [ofDisplayHex] at hread
      split at hread
      · cases hread
      · rename_i bytes hbytes
        cases hread
        exact hbytes.trans (congrArg Except.ok (List.reverse_reverse bytes).symm)
    exact (Hex.decodeExactly_eq_ok_iff.1 hdecode).2
  · intro hlower
    obtain ⟨x, hx, hbytes⟩ := ofDisplayHex_of_ok (Hex.decodeExactly_eq_ok_iff.2 ⟨hlen, hlower⟩)
    rw [List.reverse_reverse] at hbytes
    rw [hx, Hash.ext hbytes]

end MinerInfo
