import MinerInfo.Text

/-! The parts of a miner info reference script: the marker in front, the version byte, and pushes with the
lengths that are allowed for them. With them stand the reasons for which a script is no miner info reference,
or a reference has no script. -/

namespace MinerInfo.Script

/-- The opcode that pushes the empty byte string. -/
def opFalse : UInt8 := 0x00

/-- The opcode that makes an output unspendable. -/
def opReturn : UInt8 := 0x6a

/-- The opcode under which the next byte is data. -/
def opPushOne : UInt8 := 0x01

/-- The opcode under which the next four bytes are data. -/
def opPushFour : UInt8 := 0x04

def protocolId : Bytes := [0x60, 0x1d, 0xfa, 0xce]

/-- The bytes that every miner info reference script begins with: an unspendable output, the protocol
identifier, and the push of the version byte. -/
def marker : Bytes := [opFalse, opReturn, opPushFour] ++ protocolId ++ [opPushOne]

/-- The declared length of the three hash pushes. -/
def hashLength : UInt8 := 32

/-- The least declared length of a signature push. -/
def minSignatureLength : UInt8 := 70

/-- The greatest declared length of a signature push. -/
def maxSignatureLength : UInt8 := 72

@[simp] theorem length_marker : marker.length = 8 := rfl

inductive Version where
  | v0
  deriving DecidableEq, Inhabited

def Version.ofByte? (byte : UInt8) : Option Version := if byte = 0 then some .v0 else none

def Version.toByte : Version → UInt8
  | .v0 => 0

def Version.shown (v : Version) : Text := 'v' :: Nat.toDigits 10 v.toByte.toNat

/-- The name of a version, as it is written where values are inspected. -/
def Version.label : Version → Text
  | .v0 => "V0".toList

theorem Version.isNone_ofByte?_iff {byte : UInt8} : (ofByte? byte).isNone ↔ byte ≠ 0 := by
  rw [ofByte?]
  split
  · rename_i h
    exact iff_of_false Bool.false_ne_true (not_not_intro h)
  · rename_i h
    exact iff_of_true rfl h

/-- The byte that tells a length, if one byte can. -/
def lengthByte? (n : Nat) : Option UInt8 := if n < UInt8.size then some (.ofNat n) else none

/-- A length is told by a byte in a range exactly if it is itself between the bounds of the range. -/
theorem any_lengthByte?_iff {low high : UInt8} {n : Nat} :
    (lengthByte? n).any (fun b => low ≤ b ∧ b ≤ high) ↔ low.toNat ≤ n ∧ n ≤ high.toNat := by
  rw [lengthByte?]
  split
  · rename_i hn
    rw [Option.any_some, decide_eq_true_iff, UInt8.le_iff_toNat_le, UInt8.le_iff_toNat_le,
      UInt8.toNat_ofNat_of_lt' hn]
  · rename_i hn
    have hhigh := high.toNat_lt
    exact iff_of_false Bool.false_ne_true fun h => hn (Nat.lt_of_le_of_lt h.2 hhigh)

/-- Appends a push of at most 255 bytes: one length byte and the data. -/
def push (script data : Bytes) : Bytes := script ++ UInt8.ofNat data.length :: data

/-- The script after each of several pushes. -/
def afterEachPush (script : Bytes) : List Bytes → List Bytes
  | [] => []
  | data :: rest => push script data :: afterEachPush (push script data) rest

@[simp] theorem length_push (script data : Bytes) :
    (push script data).length = script.length + 1 + data.length := by
  simp [push]
  omega

theorem push_eq_append (script data : Bytes) : push script data = script ++ push [] data := by
  simp [push]

/-- Several pushes one after the other add their written forms to a script. -/
theorem foldl_push (script : Bytes) (ds : List Bytes) : ds.foldl push script = script ++ ds.flatMap (push []) := by
  induction ds generalizing script with
  | nil => simp
  | cons data ds ih => rw [List.foldl_cons, ih, push_eq_append, List.flatMap_cons, List.append_assoc]

/-- The first constraint that a script breaks. -/
inductive Rejection where
  /-- The script does not begin with the marker. -/
  | noMarker
  /-- The script ends inside a field. -/
  | tooShort
  | unknownVersion
  | txidLength
  | merkleRootLength
  | previousBlockLength
  | signatureLength
  deriving DecidableEq, Repr

def Rejection.message : Rejection → Text
  | .noMarker => "script is not a miner ID protocol script".toList
  | .tooShort => "script too short".toList
  | .unknownVersion => "unsupported script version".toList
  | .txidLength => "invalid miner info txid length".toList
  | .merkleRootLength => "invalid modified merkle root length".toList
  | .previousBlockLength => "invalid previous block hash length".toList
  | .signatureLength => "invalid block bind signature length".toList

/-- The name of a rejection, as it is written where values are inspected. -/
def Rejection.label : Rejection → Text
  | .noMarker => "InvalidProtocolId".toList
  | .tooShort => "ScriptTooShort".toList
  | .unknownVersion => "ScriptVersionUnsupported".toList
  | .txidLength => "InvalidTxidLen".toList
  | .merkleRootLength => "InvalidMmRootLen".toList
  | .previousBlockLength => "InvalidPrevBlockHashLen".toList
  | .signatureLength => "InvalidSigLen".toList

def Rejection.all : List Rejection :=
  [.noMarker, .tooShort, .unknownVersion, .txidLength, .merkleRootLength, .previousBlockLength,
    .signatureLength]

def Rejection.ofLabel? (label : Text) : Option Rejection := all.find? fun r => r.label = label

end MinerInfo.Script
