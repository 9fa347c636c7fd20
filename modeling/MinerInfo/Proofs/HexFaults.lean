import MinerInfo.Proofs.DisplayForm

/-! Which texts are refused as hexadecimal, and for what. The fault is told on the UTF-8 bytes of a text: their number
is looked at first, and then the leftmost of them that is no digit, at its place in the text as it is written. -/

namespace MinerInfo

namespace Hex

/-- The bytes of the digits of both cases. -/
def digitBytes : Bytes := allDigits.utf8

/-- What keeps a byte string from being read as digits, of `size` bytes where a size is demanded. -/
inductive FaultOf (size : Option Nat) (bytes : Bytes) : Fault → Prop where
  | odd (hodd : bytes.length % 2 = 1) : FaultOf size bytes .oddLength
  | length {n : Nat} (heven : bytes.length % 2 = 0) (hsize : size = some n) (hne : bytes.length ≠ 2 * n) :
      FaultOf size bytes .wrongLength
  | digit {before after : Bytes} {byte : UInt8} (heven : bytes.length % 2 = 0)
      (hsize : ∀ n, size = some n → bytes.length = 2 * n) (hbytes : bytes = before ++ byte :: after)
      (hbefore : ∀ b ∈ before, b ∈ digitBytes) (hbyte : byte ∉ digitBytes) :
      FaultOf size bytes (.badDigit byte before.length)

theorem value?_ofNat_eq_none : ∀ n < 256, (value? (UInt8.ofNat n) = none ↔ UInt8.ofNat n ∉ digitBytes) := by
  decide +kernel

theorem value?_eq_none_iff {byte : UInt8} : value? byte = none ↔ byte ∉ digitBytes := by
  have h := value?_ofNat_eq_none byte.toNat byte.toNat_lt
  rwa [UInt8.ofNat_toNat] at h

theorem exists_value?_iff {byte : UInt8} : (∃ v, value? byte = some v) ↔ byte ∈ digitBytes := by
  rw [← Option.isSome_iff_exists, Option.isSome_iff_ne_none, ne_eq, value?_eq_none_iff, Decidable.not_not]

theorem message_badDigit {byte : UInt8} {c : Char} (hc : c.toNat = byte.toNat) (index : Nat) :
    (Fault.badDigit byte index).message =
      "Invalid character ".toList ++ Text.quotedChar c ++ " at position ".toList ++ Nat.toDigits 10 index := by
  have hchar := Char.ofNat_toNat c
  rw [hc] at hchar
  subst hchar
  rfl

theorem values_of_not_mem {byte : UInt8} (h : byte ∉ digitBytes) (index : Nat) (rest : Bytes) :
    values index (byte :: rest) = .error (.badDigit byte index) := by
  rw [values, value?_eq_none_iff.2 h]

theorem values_cons_eq_error_iff {byte : UInt8} (h : byte ∈ digitBytes) {index : Nat} {rest : Bytes} {f : Fault} :
    values index (byte :: rest) = .error f ↔ values (index + 1) rest = .error f := by
  obtain ⟨v, hv⟩ := exists_value?_iff.2 h
  rw [values, hv]
  cases values (index + 1) rest with
  | error g => exact Iff.rfl
  | ok vs => exact iff_of_false ok_ne_error ok_ne_error

theorem exists_values_iff {bytes : Bytes} {index : Nat} :
    (∃ vs, values index bytes = .ok vs) ↔ ∀ b ∈ bytes, b ∈ digitBytes := by
  induction bytes generalizing index with
  | nil => exact ⟨fun _ => List.forall_mem_nil _, fun _ => ⟨[], rfl⟩⟩
  | cons b rest ih =>
      rw [List.forall_mem_cons, ← @ih (index + 1), ← exists_value?_iff]
      simp only [values_cons_eq_ok_iff]
      constructor
      · rintro ⟨_, v, hv, ws, hws, -⟩
        exact ⟨⟨v, hv⟩, ws, hws⟩
      · rintro ⟨⟨v, hv⟩, ws, hws⟩
        exact ⟨v :: ws, v, hv, ws, hws, rfl⟩

theorem values_of_leftmost {before after : Bytes} {byte : UInt8} (hbefore : ∀ b ∈ before, b ∈ digitBytes)
    (hbyte : byte ∉ digitBytes) (index : Nat) :
    values index (before ++ byte :: after) = .error (.badDigit byte (index + before.length)) := by
  induction before generalizing index with
  | nil => exact values_of_not_mem hbyte index after
  | cons b before ih =>
      obtain ⟨hb, hbefore⟩ := List.forall_mem_cons.1 hbefore
      rw [List.cons_append, values_cons_eq_error_iff hb, ih hbefore, List.length_cons, Nat.add_assoc, Nat.add_comm 1]

theorem digits_or_leftmost (bytes : Bytes) : (∀ b ∈ bytes, b ∈ digitBytes) ∨
    ∃ before byte after, bytes = before ++ byte :: after ∧ (∀ b ∈ before, b ∈ digitBytes) ∧ byte ∉ digitBytes := by
  cases hfind : bytes.find? fun b => decide (b ∉ digitBytes) with
  | none =>
      refine .inl fun b hb => ?_
      have hnot := List.find?_eq_none.1 hfind b hb
      rwa [decide_eq_true_iff, Decidable.not_not] at hnot
  | some byte =>
      obtain ⟨hbyte, before, after, hsplit, hbefore⟩ := List.find?_eq_some_iff_append.1 hfind
      refine .inr ⟨before, byte, after, hsplit, fun b hb => ?_, of_decide_eq_true hbyte⟩
      simpa using hbefore b hb

/-- Of a run that is no run of digits the leftmost byte that is none is reported. -/
theorem values_eq_error_iff {bytes : Bytes} {index : Nat} {f : Fault} :
    values index bytes = .error f ↔
      ∃ before byte after, bytes = before ++ byte :: after ∧ (∀ b ∈ before, b ∈ digitBytes) ∧ byte ∉ digitBytes ∧
        f = .badDigit byte (index + before.length) := by
  constructor
  · intro h
    rcases digits_or_leftmost bytes with hdigits | ⟨before, byte, after, rfl, hbefore, hbyte⟩
    · obtain ⟨vs, hvs⟩ := (@exists_values_iff bytes index).2 hdigits
      cases hvs.symm.trans h
    · have hfault := h.symm.trans (values_of_leftmost hbefore hbyte index)
      exact ⟨before, byte, after, rfl, hbefore, hbyte, Except.error.inj hfault⟩
  · rintro ⟨before, byte, after, rfl, hbefore, hbyte, rfl⟩
    exact values_of_leftmost hbefore hbyte index

theorem map_joined_eq_error_iff {r : Except Fault (List UInt8)} {f : Fault} :
    r.map joined = .error f ↔ r = .error f := by
  cases r with
  | error g => exact Iff.rfl
  | ok vs => exact iff_of_false ok_ne_error ok_ne_error

theorem faultOf_iff_values {size : Option Nat} {bytes : Bytes} (heven : bytes.length % 2 = 0)
    (hsize : ∀ n, size = some n → bytes.length = 2 * n) {f : Fault} :
    FaultOf size bytes f ↔ values 0 bytes = .error f := by
  rw [values_eq_error_iff]
  constructor
  · intro h
    cases h with
    | odd hodd => omega
    | length _ hn hne => exact absurd (hsize _ hn) hne
    | @digit before after byte _ _ hbytes hbefore hbyte =>
        exact ⟨before, byte, after, hbytes, hbefore, hbyte, by rw [Nat.zero_add]⟩
  · rintro ⟨before, byte, after, hbytes, hbefore, hbyte, rfl⟩
    rw [Nat.zero_add]
    exact .digit heven hsize hbytes hbefore hbyte

theorem faultOf_of_odd {size : Option Nat} {bytes : Bytes} (hodd : bytes.length % 2 = 1) {f : Fault} :
    FaultOf size bytes f ↔ .oddLength = f := by
  constructor
  · intro h
    cases h with
    | odd _ => rfl
    | length heven _ _ => omega
    | digit heven _ _ _ _ => omega
  · rintro rfl
    exact .odd hodd

/-- The fault of a text of no demanded length. -/
theorem decode_eq_error_iff {t : Text} {f : Fault} : decode t = .error f ↔ FaultOf none t.utf8 f := by
  rw [decode]
  by_cases hodd : t.utf8.length % 2 = 1
  · rw [if_pos hodd, faultOf_of_odd hodd, Except.error.injEq]
  · rw [if_neg hodd, map_joined_eq_error_iff, faultOf_iff_values (by omega) (fun n hn => by cases hn)]

theorem decodeExactly_eq_error_iff {size : Nat} {t : Text} {f : Fault} :
    decodeExactly size t = .error f ↔ FaultOf (some size) t.utf8 f := by
  rw [decodeExactly]
  by_cases hodd : t.utf8.length % 2 = 1
  · rw [if_pos hodd, faultOf_of_odd hodd, Except.error.injEq]
  · rw [if_neg hodd]
    have heven : t.utf8.length % 2 = 0 := by omega
    by_cases hlen : t.utf8.length = 2 * size
    · rw [if_neg (not_not_intro hlen), map_joined_eq_error_iff, faultOf_iff_values heven]
      rintro n hn
      cases hn
      exact hlen
    · rw [if_pos hlen, Except.error.injEq]
      constructor
      · rintro rfl
        exact .length heven rfl hlen
      · intro h
        cases h with
        | odd hodd' => exact absurd hodd' hodd
        | length _ _ _ => rfl
        | digit _ hsize _ _ _ => exact absurd (hsize size rfl) hlen

/-- A text is read as bytes if its bytes are digits and their number is even. -/
theorem exists_decode_iff {t : Text} :
    (∃ bytes, decode t = .ok bytes) ↔ t.utf8.length % 2 = 0 ∧ ∀ b ∈ t.utf8, b ∈ digitBytes := by
  rw [decode, ← @exists_values_iff t.utf8 0]
  by_cases hodd : t.utf8.length % 2 = 1
  · rw [if_pos hodd]
    constructor
    · rintro ⟨bytes, h⟩
      cases h
    · rintro ⟨heven, -⟩
      omega
  · rw [if_neg hodd]
    constructor
    · rintro ⟨bytes, h⟩
      refine ⟨by omega, ?_⟩
      cases hv : values 0 t.utf8 with
      | error f =>
          rw [hv] at h
          cases h
      | ok vs => exact ⟨vs, rfl⟩
    · rintro ⟨-, vs, hvs⟩
      exact ⟨joined vs, by rw [hvs]; rfl⟩

end Hex

theorem Hash.ofDisplayHex_eq_error_iff {t : Text} {f : Hex.Fault} :
    ofDisplayHex t = .error f ↔ Hex.FaultOf (some size) t.utf8 f := by
  rw [← Hex.decodeExactly_eq_error_iff, ofDisplayHex]
  split
  · rename_i g hg
    rw [hg, Except.error.injEq, Except.error.injEq]
  · rename_i bytes hbytes
    constructor
    · intro h
      cases h
    · intro h
      rw [hbytes] at h
      cases h

end MinerInfo
