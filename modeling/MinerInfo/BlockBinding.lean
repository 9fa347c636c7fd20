import MinerInfo.Sha256

/-! The binding of a miner info document to a block: the miner signs the modified merkle root together
with the hash of the previous block. The check of a signature is supplied from outside: keys and the
signature scheme are no part of this library. -/

namespace MinerInfo

/-- A modified merkle root, a previous block hash, and the miner's signature over both. -/
structure BlockBinding where
  modifiedMerkleRoot : Hash
  previousBlock : Hash
  signature : Bytes
  deriving DecidableEq

namespace BlockBinding

theorem eq_iff_bytes {a b : BlockBinding} :
    a = b ↔ a.modifiedMerkleRoot.bytes = b.modifiedMerkleRoot.bytes ∧
      a.previousBlock.bytes = b.previousBlock.bytes ∧ a.signature = b.signature := by
  cases a
  cases b
  rw [BlockBinding.mk.injEq, Hash.ext_iff, Hash.ext_iff]

/-- The message that the signature commits to. -/
def signedMessage (b : BlockBinding) : Bytes := b.modifiedMerkleRoot.bytes ++ b.previousBlock.bytes

/-- The digest that the signature is checked against. -/
def messageDigest (b : BlockBinding) : Hash := Sha256.hash b.signedMessage

@[simp] theorem length_signedMessage (b : BlockBinding) : b.signedMessage.length = 64 := by
  simp [signedMessage, Hash.length_bytes]

/-- Puts a binding to a verifier, which may have effects of its own. -/
def verifyWith {m : Type → Type} (b : BlockBinding) (verifier : BlockBinding → m Bool) : m Bool := verifier b

end BlockBinding

namespace Verification

/-- The parts of a binding that a verifier can look at. -/
inductive Part where
  | modifiedMerkleRoot
  | previousBlock
  | signature
  | signedMessage
  | messageDigest
  deriving DecidableEq

def Part.bytes : Part → BlockBinding → Bytes
  | .modifiedMerkleRoot, b => b.modifiedMerkleRoot.bytes
  | .previousBlock, b => b.previousBlock.bytes
  | .signature, b => b.signature
  | .signedMessage, b => b.signedMessage
  | .messageDigest, b => b.messageDigest.bytes

/-- Verifiers without a key: they take all, or none, or the bindings of which a part has given bytes. -/
inductive Rule where
  | accept
  | reject
  | expect (part : Part) (bytes : Bytes)
  deriving DecidableEq

def Rule.holds : Rule → BlockBinding → Bool
  | .accept, _ => true
  | .reject, _ => false
  | .expect part bytes, b => part.bytes b = bytes

/-- A verifier that counts how often it is asked. -/
def counted (verifier : BlockBinding → Bool) (b : BlockBinding) : StateM Nat Bool := do
  modify (· + 1)
  return verifier b

end Verification

end MinerInfo
