import MinerInfo.Proofs.Emission

/-! Reading and writing scripts undo each other. From any place, a reference is read exactly where its script
stands, and the cursor then is at the end of that script; so what follows a script plays no part, and a
reference has one script. -/

namespace MinerInfo.Reference

open Script

def pushes (r : Reference) : Bytes :=
  push [] r.txid.bytes ++ (push [] r.binding.modifiedMerkleRoot.bytes ++
    (push [] r.binding.previousBlock.bytes ++ push [] r.binding.signature))

/-- The signatures of which the decoder accepts the length. -/
def Writable (r : Reference) : Prop := 70 ≤ r.binding.signature.length ∧ r.binding.signature.length ≤ 72

theorem writable_iff {r : Reference} :
    (lengthByte? r.binding.signature.length).any (fun n => minSignatureLength ≤ n ∧ n ≤ maxSignatureLength) ↔
      r.Writable :=
  any_lengthByte?_iff

theorem length_pushes (r : Reference) : r.pushes.length = 100 + r.binding.signature.length := by
  simp only [pushes, List.length_append, length_push, Hash.length_bytes, List.length_nil]
  omega

theorem foldl_push_bytes (hs : List Hash) (script : Bytes) :
    hs.foldl (fun script h => push script h.bytes) script = script ++ hs.flatMap fun h => push [] h.bytes := by
  rw [← List.foldl_map, foldl_push, List.flatMap_map]

theorem toScript_of_writable {r : Reference} (h : r.Writable) : r.toScript = .ok (marker ++ [0] ++ r.pushes) := by
  rw [toScript]
  refine (if_pos (writable_iff.2 h)).trans (congrArg Except.ok ?_)
  rw [push_eq_append, foldl_push_bytes]
  simp only [List.flatMap_cons, List.flatMap_nil, List.append_nil, List.append_assoc, pushes, Version.toByte]

theorem toScript_of_not_writable {r : Reference} (h : ¬r.Writable) : r.toScript = .error .signatureLength := by
  rw [toScript]
  exact if_neg (mt writable_iff.1 h)

theorem toScript_eq_ok_iff {r : Reference} {e : Bytes} :
    r.toScript = .ok e ↔ r.Writable ∧ e = marker ++ [0] ++ r.pushes := by
  by_cases h : r.Writable
  · simp [toScript_of_writable h, h, eq_comm]
  · simp [toScript_of_not_writable h, h]

theorem header_eq_ok_iff {u : Unit} {c d : Cursor} :
    header c = .ok u d ↔ marker ++ [0] <+: c.unread ∧ d = c.advance (marker ++ [0]).length := by
  rw [header]
  simp only [Read.bind_eq_ok_iff, Read.demand_eq_ok_iff, Read.byte_eq_ok_iff]
  constructor
  · rintro ⟨_, c₁, hm, -, _, ⟨rfl, rfl⟩, version, c₂, ⟨hbyte, rfl⟩, rfl, rfl⟩
    obtain ⟨hmarker, rfl⟩ := Read.marker_eq_ok_true_iff.1 hm
    refine ⟨Cursor.append_prefix_unread.2 ⟨hmarker, hbyte⟩, ?_⟩
    rw [Cursor.advance_advance]
    rfl
  · rintro ⟨hpre, rfl⟩
    obtain ⟨hmarker, hbyte⟩ := Cursor.append_prefix_unread.1 hpre
    refine ⟨true, _, Read.marker_eq_ok_true_iff.2 ⟨hmarker, rfl⟩, (), _, ⟨rfl, rfl⟩, 0, _, ⟨hbyte, rfl⟩, rfl, ?_⟩
    rw [Cursor.advance_advance]
    rfl

theorem body_eq_ok_iff {r : Reference} {c d : Cursor} :
    body c = .ok r d ↔ r.Writable ∧ r.pushes <+: c.unread ∧ d = c.advance r.pushes.length := by
  rw [body]
  simp only [Read.bind_eq_ok_iff, Read.hash_eq_ok_iff, Read.push_eq_ok_iff, Read.pure_eq_ok_iff]
  constructor
  · rintro ⟨txid, _, ⟨htxid, rfl⟩, root, _, ⟨hroot, rfl⟩, previous, _, ⟨hprevious, rfl⟩, signature, _,
      ⟨hwritable, hsignature, rfl⟩, rfl, rfl⟩
    refine ⟨hwritable, ?_, ?_⟩
    · exact Cursor.append_prefix_unread.2 ⟨htxid, Cursor.append_prefix_unread.2
        ⟨hroot, Cursor.append_prefix_unread.2 ⟨hprevious, hsignature⟩⟩⟩
    · simp only [Cursor.advance_advance, pushes, List.length_append, Nat.add_assoc]
  · rintro ⟨hwritable, hpre, rfl⟩
    obtain ⟨htxid, hpre⟩ := Cursor.append_prefix_unread.1 hpre
    obtain ⟨hroot, hpre⟩ := Cursor.append_prefix_unread.1 hpre
    obtain ⟨hprevious, hsignature⟩ := Cursor.append_prefix_unread.1 hpre
    refine ⟨r.txid, _, ⟨htxid, rfl⟩, r.binding.modifiedMerkleRoot, _, ⟨hroot, rfl⟩, r.binding.previousBlock, _,
      ⟨hprevious, rfl⟩, r.binding.signature, _, ⟨hwritable, hsignature, rfl⟩, rfl, ?_⟩
    simp only [Cursor.advance_advance, pushes, List.length_append, Nat.add_assoc]

/-- From any place, a reference is read exactly where its script stands, up to the end of that script. -/
theorem read_eq_ok_iff {r : Reference} {c d : Cursor} :
    read c = .ok r d ↔ ∃ e, r.toScript = .ok e ∧ e <+: c.unread ∧ d = c.advance e.length := by
  simp only [read, Read.bind_eq_ok_iff, header_eq_ok_iff, body_eq_ok_iff, toScript_eq_ok_iff]
  constructor
  · rintro ⟨_, _, ⟨hheader, rfl⟩, hwritable, hpushes, rfl⟩
    refine ⟨_, ⟨hwritable, rfl⟩, Cursor.append_prefix_unread.2 ⟨hheader, hpushes⟩, ?_⟩
    simp only [Cursor.advance_advance, List.length_append]
  · rintro ⟨_, ⟨hwritable, rfl⟩, hpre, rfl⟩
    obtain ⟨hheader, hpushes⟩ := Cursor.append_prefix_unread.1 hpre
    refine ⟨(), _, ⟨hheader, rfl⟩, hwritable, hpushes, ?_⟩
    simp only [Cursor.advance_advance, List.length_append]

theorem ofScript_eq_ok_iff_read {s : Bytes} {r : Reference} :
    ofScript s = .ok r ↔ ∃ d, read (.atStart s) = .ok r d := by
  cases h : read (.atStart s) with
  | ok q d => simp [ofScript_of_ok h]
  | error e d => simp [ofScript_of_error h]

theorem ofScript_of_toScript {s e : Bytes} {r : Reference} (he : r.toScript = .ok e) (hpre : e <+: s) :
    ofScript s = .ok r :=
  ofScript_of_ok (read_eq_ok_iff.2 ⟨e, he, hpre, rfl⟩)

theorem prefix_of_ofScript {s : Bytes} {r : Reference} (h : ofScript s = .ok r) :
    ∃ e, r.toScript = .ok e ∧ e <+: s := by
  obtain ⟨d, hd⟩ := ofScript_eq_ok_iff_read.1 h
  obtain ⟨e, he, hpre, -⟩ := read_eq_ok_iff.1 hd
  exact ⟨e, he, hpre⟩

/-- A script is read as a reference if and only if it begins with the script of that reference. -/
theorem ofScript_eq_ok_iff_toScript_prefix (s : Bytes) (r : Reference) :
    ofScript s = .ok r ↔ ∃ e, r.toScript = .ok e ∧ e <+: s := by
  constructor
  · intro h
    exact prefix_of_ofScript h
  · rintro ⟨e, he, hpre⟩
    exact ofScript_of_toScript he hpre

end MinerInfo.Reference
