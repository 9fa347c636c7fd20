import MinerInfo.Text

/-! Hexadecimal texts: two lowercase digits for each byte when written, digits of either case when read.
The fault of a text is found on its UTF-8 bytes, and the length is looked at before the digits. -/

theorem MinerInfo.ok_ne_error {ε α : Type} {a : α} {e : ε} : Except.ok a ≠ Except.error e := by
  intro h
  cases h

namespace MinerInfo.Hex

/-- What keeps a text from being read as hexadecimal. -/
inductive Fault where
  | oddLength
  | wrongLength
  | badDigit (byte : UInt8) (index : Nat)
  deriving DecidableEq, Repr

/-- The wording of a fault. A bad byte is shown as the character with its number. -/
def Fault.message : Fault → Text
  | .oddLength => "Odd number of digits".toList
  | .wrongLength => "Invalid string length".toList
  | .badDigit byte index =>
    "Invalid character ".toList ++ Text.quotedChar (Char.ofNat byte.toNat) ++ " at position ".toList
      ++ Nat.toDigits 10 index

/-- The digit of a number below sixteen. -/
def digit (n : Nat) : Char := if n < 10 then Char.ofNat (0x30 + n) else Char.ofNat (0x57 + n)

/-- The two digits of a byte, the high half first. -/
def digits (byte : UInt8) : Text := [digit (byte.toNat / 16), digit (byte.toNat % 16)]

/-- The digits of a byte string, byte by byte. -/
def encode (bytes : Bytes) : Text := bytes.flatMap digits

@[simp] theorem encode_nil : encode [] = [] := rfl

@[simp] theorem encode_cons (byte : UInt8) (bytes : Bytes) :
    encode (byte :: bytes) = digits byte ++ encode bytes := rfl

@[simp] theorem encode_append (a b : Bytes) : encode (a ++ b) = encode a ++ encode b := by
  simp [encode]

@[simp] theorem length_encode (bytes : Bytes) : (encode bytes).length = 2 * bytes.length := by
  induction bytes with
  | nil => rfl
  | cons byte bytes ih => simp [digits, ih]; omega

theorem foldl_append_digits (bytes : Bytes) (t : Text) :
    bytes.foldl (fun t byte => t ++ digits byte) t = t ++ encode bytes := by
  induction bytes generalizing t with
  | nil => exact (List.append_nil t).symm
  | cons byte bytes ih => rw [List.foldl_cons, ih, encode_cons, List.append_assoc]

/-- A digit with its letter made small. -/
def lowerDigit (c : Char) : Char := if 'A' ≤ c ∧ c ≤ 'F' then Char.ofNat (c.toNat + 0x20) else c

/-- A text with the letters that are digits made small. -/
def lower (t : Text) : Text := t.map lowerDigit

/-- The value of a digit, given as a byte. -/
def value? (byte : UInt8) : Option UInt8 :=
  if 0x30 ≤ byte ∧ byte ≤ 0x39 then some (byte - 0x30)
  else if 0x61 ≤ byte ∧ byte ≤ 0x66 then some (byte - 0x57)
  else if 0x41 ≤ byte ∧ byte ≤ 0x46 then some (byte - 0x37)
  else none

/-- The values of a run of digits of which the first stands at `index`; the leftmost byte that is no
digit is reported. -/
def values (index : Nat) : Bytes → Except Fault (List UInt8)
  | [] => .ok []
  | byte :: rest =>
    match value? byte with
    | none => .error (.badDigit byte index)
    | some n => (values (index + 1) rest).map (n :: ·)

/-- The bytes whose halves are the given values, the high half first. -/
def joined : List UInt8 → Bytes
  | high :: low :: rest => (high * 16 + low) :: joined rest
  | _ => []

/-- Reads a text of any even length. -/
def decode (t : Text) : Except Fault Bytes :=
  if t.utf8.length % 2 = 1 then .error .oddLength else (values 0 t.utf8).map joined

/-- Reads a text that has to spell exactly `size` bytes. -/
def decodeExactly (size : Nat) (t : Text) : Except Fault Bytes :=
  if t.utf8.length % 2 = 1 then .error .oddLength
  else if t.utf8.length ≠ 2 * size then .error .wrongLength
  else (values 0 t.utf8).map joined

theorem length_of_values {index : Nat} {bytes : Bytes} {vs : List UInt8}
    (h : values index bytes = .ok vs) : vs.length = bytes.length := by
  induction bytes generalizing index vs with
  | nil => cases h; rfl
  | cons byte rest ih =>
    simp only [values] at h
    split at h
    · cases h
    · cases hr : values (index + 1) rest with
      | error e => simp [hr, Except.map] at h
      | ok ws =>
        simp only [hr, Except.map, Except.ok.injEq] at h
        simp [← h, ih hr]

theorem length_joined : ∀ vs : List UInt8, (joined vs).length = vs.length / 2
  | [] => rfl
  | [_] => by simp [joined]
  | _ :: _ :: rest => by simp [joined, length_joined rest]; omega

theorem length_of_decodeExactly {size : Nat} {t : Text} {bytes : Bytes}
    (h : decodeExactly size t = .ok bytes) : bytes.length = size := by
  unfold decodeExactly at h
  split at h
  · cases h
  · split at h
    · cases h
    · rename_i hlen
      cases hv : values 0 t.utf8 with
      | error e => simp [hv, Except.map] at h
      | ok vs =>
        simp only [hv, Except.map, Except.ok.injEq] at h
        rw [← h, length_joined, length_of_values hv]
        omega

end MinerInfo.Hex
