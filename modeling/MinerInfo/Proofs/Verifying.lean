import MinerInfo.Proofs.Duality
import MinerInfo.Proofs.Offsets

/-! What a verifier is asked about. A reference that is read from a script is put to a verifier as the binding whose
fields stand in the script, and the message that its signature commits to is the two hashes as they stand there. So
two scripts that agree in these bytes get one answer, and scripts that do not are told apart by some verifier. -/

namespace MinerInfo.Reference

open Script

variable {s t : Bytes} {r q : Reference}

theorem length_of_ofScript (h : ofScript s = .ok r) : 109 + (s.getD 108 0).toNat ≤ s.length := by
  obtain ⟨hfault, -⟩ := ofScript_eq_ok_iff.1 h
  rw [firstFault, bodyFault] at hfault
  obtain ⟨-, hbody⟩ := Option.or_eq_none_iff.1 hfault
  obtain ⟨-, hbody⟩ := Option.or_eq_none_iff.1 hbody
  obtain ⟨-, hbody⟩ := Option.or_eq_none_iff.1 hbody
  obtain ⟨-, hsignature⟩ := Option.or_eq_none_iff.1 hbody
  exact (of_pushFault_eq_none hsignature).2.2

theorem slice_eq_cons {i j : Nat} (hi : i < s.length) (hij : i < j) : slice s i j = s[i] :: slice s (i + 1) j := by
  have hcount : j - i = j - (i + 1) + 1 := by omega
  rw [slice, slice, List.drop_eq_getElem_cons hi, hcount, List.take_succ_cons]

/-- The push of the signature stands in the script, its length byte in front. -/
theorem slice_push_of_ofScript (h : ofScript s = .ok r) :
    slice s 108 (109 + (s.getD 108 0).toNat) = push [] r.binding.signature := by
  obtain ⟨-, hstands⟩ := ofScript_eq_ok_iff.1 h
  have hend := length_of_ofScript h
  have hlt : 108 < s.length := by omega
  have hbyte : s[108] = s.getD 108 0 := by
    rw [List.getD_eq_getElem?_getD, List.getElem?_eq_getElem hlt, Option.getD_some]
  have hlen : r.binding.signature.length = (s.getD 108 0).toNat := by
    rw [hstands.signature, slice, List.length_take, List.length_drop]
    omega
  rw [slice_eq_cons hlt (by omega), hbyte, ← hstands.signature, push, List.nil_append, hlen, UInt8.ofNat_toNat]

theorem push_nil_inj {a b : Bytes} : push [] a = push [] b ↔ a = b :=
  ⟨fun h => (List.cons.inj h).2, congrArg (push [])⟩

theorem signedMessage_of_ofScript (h : ofScript s = .ok r) :
    r.binding.signedMessage = slice s 43 75 ++ slice s 76 108 := by
  obtain ⟨-, hstands⟩ := ofScript_eq_ok_iff.1 h
  rw [BlockBinding.signedMessage, hstands.modifiedMerkleRoot, hstands.previousBlock]

/-- The halves of a message are the two hashes. -/
theorem signedMessage_eq_iff {a b : BlockBinding} : a.signedMessage = b.signedMessage ↔
    a.modifiedMerkleRoot.bytes = b.modifiedMerkleRoot.bytes ∧ a.previousBlock.bytes = b.previousBlock.bytes := by
  rw [BlockBinding.signedMessage, BlockBinding.signedMessage]
  constructor
  · intro h
    exact List.append_inj h (by rw [Hash.length_bytes, Hash.length_bytes])
  · rintro ⟨hroot, hprevious⟩
    rw [hroot, hprevious]

theorem binding_eq_iff_of_ofScript (hs : ofScript s = .ok r) (ht : ofScript t = .ok q) : r.binding = q.binding ↔
    slice s 43 75 = slice t 43 75 ∧ slice s 76 108 = slice t 76 108 ∧
      slice s 108 (109 + (s.getD 108 0).toNat) = slice t 108 (109 + (t.getD 108 0).toNat) := by
  obtain ⟨-, hstands⟩ := ofScript_eq_ok_iff.1 hs
  obtain ⟨-, hstands'⟩ := ofScript_eq_ok_iff.1 ht
  rw [slice_push_of_ofScript hs, slice_push_of_ofScript ht, push_nil_inj, BlockBinding.eq_iff_bytes,
    hstands.modifiedMerkleRoot, hstands.previousBlock, hstands'.modifiedMerkleRoot, hstands'.previousBlock]

/-- Verifiers tell bindings apart: there is one for each binding that takes no other. -/
theorem verifyBinding_eq_iff : (∀ (m : Type → Type) (verifier : BlockBinding → m Bool),
    r.verifyBinding verifier = q.verifyBinding verifier) ↔ r.binding = q.binding := by
  constructor
  · intro h
    have hanswer : decide (r.binding = q.binding) = decide (q.binding = q.binding) :=
      h Id fun b => decide (b = q.binding)
    rw [decide_eq_true rfl] at hanswer
    exact of_decide_eq_true hanswer
  · intro h m verifier
    rw [verifyBinding, verifyBinding, h]

/-- A verifier is asked about the binding whose fields stand in the script. Its message is the two hashes, in the order
of their bytes there, and its digest is that of these sixty-four bytes. Two scripts have one message exactly if they
agree in the hashes, and one answer from every verifier exactly if they agree in the hashes and in the push of the
signature. -/
theorem verifyBinding_of_ofScript (hs : ofScript s = .ok r) :
    (∃ b : BlockBinding, b.modifiedMerkleRoot.bytes = slice s 43 75 ∧ b.previousBlock.bytes = slice s 76 108 ∧
      b.signature = slice s 109 (109 + (s.getD 108 0).toNat) ∧
      ∀ (m : Type → Type) (verifier : BlockBinding → m Bool),
        r.verifyBinding verifier = verifier b ∧ r.binding.verifyWith verifier = verifier b) ∧
    r.binding.signedMessage = slice s 43 75 ++ slice s 76 108 ∧
    r.binding.signedMessage.length = 64 ∧
    r.binding.messageDigest = Sha256.hash (slice s 43 75 ++ slice s 76 108) ∧
    ∀ t q, ofScript t = .ok q →
      (r.binding.signedMessage = q.binding.signedMessage ↔
        slice s 43 75 = slice t 43 75 ∧ slice s 76 108 = slice t 76 108) ∧
      ((∀ (m : Type → Type) (verifier : BlockBinding → m Bool),
          r.verifyBinding verifier = q.verifyBinding verifier) ↔
        slice s 43 75 = slice t 43 75 ∧ slice s 76 108 = slice t 76 108 ∧
          slice s 108 (109 + (s.getD 108 0).toNat) = slice t 108 (109 + (t.getD 108 0).toNat)) := by
  obtain ⟨-, hstands⟩ := ofScript_eq_ok_iff.1 hs
  refine ⟨⟨r.binding, hstands.modifiedMerkleRoot, hstands.previousBlock, hstands.signature, fun _ _ => ⟨rfl, rfl⟩⟩,
    signedMessage_of_ofScript hs, r.binding.length_signedMessage, ?_, ?_⟩
  · rw [BlockBinding.messageDigest, signedMessage_of_ofScript hs]
  · intro t q ht
    obtain ⟨-, hstands'⟩ := ofScript_eq_ok_iff.1 ht
    constructor
    · rw [signedMessage_eq_iff, hstands.modifiedMerkleRoot, hstands.previousBlock, hstands'.modifiedMerkleRoot,
        hstands'.previousBlock]
    · rw [verifyBinding_eq_iff]
      exact binding_eq_iff_of_ofScript hs ht

/-- Two scripts with the same binding, whose hashes ascend and descend, but with other identifiers, and with bytes
behind one of them; and the digest that is signed in both. -/
theorem verifyBinding_of_other_identifier :
    let b : BlockBinding := ⟨⟨(List.range 32).map UInt8.ofNat, rfl⟩, ⟨(List.range 32).reverse.map UInt8.ofNat, rfl⟩,
      List.replicate 71 9⟩
    let r : Reference := ⟨.zero, b⟩
    let q : Reference := ⟨⟨List.replicate 32 1, rfl⟩, b⟩
    let s := marker ++ [0] ++ r.pushes ++ [0xde, 0xad]
    let t := marker ++ [0] ++ q.pushes
    ofScript s = .ok r ∧ ofScript t = .ok q ∧ r ≠ q ∧
      slice s 43 75 ++ slice s 76 108 = (List.range 32 ++ (List.range 32).reverse).map UInt8.ofNat ∧
      r.binding.messageDigest = Sha256.hash (slice s 43 75 ++ slice s 76 108) ∧
      r.binding.messageDigest.bytes =
        [0x6e, 0xc3, 0xf6, 0xb6, 0xeb, 0x0c, 0xda, 0x76, 0x32, 0x17, 0x55, 0x68, 0x65, 0x1b, 0x05, 0xb7,
          0x4f, 0xa7, 0x3f, 0xe0, 0x94, 0x76, 0xae, 0xf4, 0xc7, 0xba, 0xd1, 0x05, 0x57, 0x07, 0x2d, 0x5d] ∧
      r.binding.signedMessage = q.binding.signedMessage ∧
      ∀ (m : Type → Type) (verifier : BlockBinding → m Bool), r.verifyBinding verifier = q.verifyBinding verifier := by
  intro b r q s t
  have hs : ofScript s = .ok r :=
    ofScript_of_toScript (toScript_of_writable ⟨by decide, by decide⟩) (List.prefix_append _ _)
  have ht : ofScript t = .ok q :=
    ofScript_of_toScript (toScript_of_writable ⟨by decide, by decide⟩) (List.prefix_refl _)
  obtain ⟨-, -, -, hdigest, htwo⟩ := verifyBinding_of_ofScript hs
  obtain ⟨hsame, hanswers⟩ := htwo t q ht
  have hslices : slice s 43 75 = slice t 43 75 ∧ slice s 76 108 = slice t 76 108 := by decide +kernel
  have hpush : slice s 108 (109 + (s.getD 108 0).toNat) = slice t 108 (109 + (t.getD 108 0).toNat) := by decide +kernel
  refine ⟨hs, ht, by decide +kernel, ?_, hdigest, ?_, hsame.2 hslices, hanswers.2 ⟨hslices.1, hslices.2, hpush⟩⟩
  · decide +kernel
  · decide +kernel

end MinerInfo.Reference
