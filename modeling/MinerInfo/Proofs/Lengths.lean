import Mathlib.Data.List.Forall2
import MinerInfo.Proofs.Duality

/-! The lengths that a script tells. A push can be written for data of any length, but its one length byte is the true
length for no more than 255 bytes. A reference has a script only if its signature is of 70 to 72 bytes, and then each of
its four pushes tells its length truly and the script has the length that follows from them. -/

namespace MinerInfo

namespace Script

/-- A push that is given up if one byte cannot tell the length of the data. -/
def push? (script data : Bytes) : Option Bytes := if data.length ≤ 255 then some (push script data) else none

/-- A byte string is one byte that tells the length of the data, and the data. -/
def Tells (data s : Bytes) : Prop := ∃ n : UInt8, n.toNat = data.length ∧ s = n :: data

/-- A push is true to the length of its data exactly if one byte can tell it. -/
theorem tells_push_iff {data : Bytes} : Tells data (push [] data) ↔ data.length ≤ 255 := by
  rw [push, List.nil_append]
  constructor
  · rintro ⟨n, hn, -⟩
    have hlt := n.toNat_lt
    omega
  · intro h
    exact ⟨_, UInt8.toNat_ofNat_of_lt' (Nat.lt_succ_of_le h), rfl⟩

theorem foldlM_push? {ds : List Bytes} (h : ∀ data ∈ ds, data.length ≤ 255) (script : Bytes) :
    ds.foldlM push? script = some (ds.foldl push script) := by
  induction ds generalizing script with
  | nil => rfl
  | cons data ds ih =>
      obtain ⟨hdata, hds⟩ := List.forall_mem_cons.1 h
      have hpush : push? script data = some (push script data) := if_pos hdata
      rw [List.foldlM_cons, hpush, List.foldl_cons, ← ih hds]
      rfl

theorem forall₂_tells {ds : List Bytes} (h : ∀ data ∈ ds, data.length ≤ 255) :
    List.Forall₂ Tells ds (ds.map (push [])) :=
  List.forall₂_map_right_iff.2 (List.forall₂_same.2 fun data hdata => tells_push_iff.2 (h data hdata))

end Script

namespace Reference

open Script

/-- What is pushed for a reference, in the order of its script. -/
def data (r : Reference) : List Bytes :=
  [r.txid.bytes, r.binding.modifiedMerkleRoot.bytes, r.binding.previousBlock.bytes, r.binding.signature]

/-- The length of a script as it is reckoned in advance: the marker, the version, three pushes of hashes, and the push
of the signature. -/
def reserved (r : Reference) : Nat :=
  marker.length + 1 + 3 * (1 + Hash.size) + 1 + r.binding.signature.length

theorem length_le_of_mem_data {r : Reference} (h : r.Writable) : ∀ data ∈ r.data, data.length ≤ 255 := by
  have hsignature : r.binding.signature.length ≤ 255 := Nat.le_trans h.2 (by decide)
  have hhash (x : Hash) : x.bytes.length ≤ 255 := by rw [x.length_bytes]; decide
  simp only [data, List.forall_mem_cons]
  exact ⟨hhash _, hhash _, hhash _, hsignature, List.forall_mem_nil _⟩

theorem pushes_eq_flatten (r : Reference) : r.pushes = (r.data.map (push [])).flatten := by
  simp [pushes, data]

theorem toScript_eq_foldl {r : Reference} (h : r.Writable) :
    r.toScript = .ok (r.data.foldl push (marker ++ [Version.v0.toByte])) := by
  rw [toScript_of_writable h, pushes_eq_flatten, foldl_push, List.flatMap_def]
  rfl

/-- A reference has a script exactly if its signature is of 70 to 72 bytes, and is else rejected for that length, be it
so great that one byte would show a length in the range. A script is made of pushes of which none is given up; each
tells the true length of its data; and the whole is as long as was reckoned. -/
theorem toScript_tells_lengths (r : Reference) :
    ((∃ e, r.toScript = .ok e) ↔ 70 ≤ r.binding.signature.length ∧ r.binding.signature.length ≤ 72) ∧
    (r.toScript = .error .signatureLength ↔ ¬(70 ≤ r.binding.signature.length ∧ r.binding.signature.length ≤ 72)) ∧
    ∀ e, r.toScript = .ok e →
      r.data.foldlM push? (marker ++ [Version.v0.toByte]) = some e ∧
      (∃ ps, List.Forall₂ Tells r.data ps ∧ e = marker ++ [Version.v0.toByte] ++ ps.flatten) ∧
      e.length = 109 + r.binding.signature.length ∧ e.length = r.reserved := by
  refine ⟨?_, ?_, fun e he => ?_⟩
  · constructor
    · rintro ⟨e, he⟩
      exact (toScript_eq_ok_iff.1 he).1
    · intro h
      exact ⟨_, toScript_of_writable h⟩
  · constructor
    · intro h hwritable
      rw [toScript_of_writable hwritable] at h
      cases h
    · exact toScript_of_not_writable
  · obtain ⟨hwritable, rfl⟩ := toScript_eq_ok_iff.1 he
    have hlength : (marker ++ [0] ++ r.pushes).length = 109 + r.binding.signature.length := by
      rw [List.length_append, length_pushes]
      exact (Nat.add_assoc 9 100 _).symm
    refine ⟨?_, ⟨_, forall₂_tells (length_le_of_mem_data hwritable), ?_⟩, hlength, ?_⟩
    · rw [foldlM_push? (length_le_of_mem_data hwritable), ← Except.ok.inj ((toScript_eq_foldl hwritable).symm.trans he)]
    · rw [← pushes_eq_flatten]
      rfl
    · rw [hlength]
      rfl

/-- The longest signature that has a script, and one that is longer by 254, so that its length is told by no byte but
would show as 70 in one. -/
theorem toScript_of_long_signature :
    let r : Reference := ⟨.zero, .zero, .zero, List.replicate 72 7⟩
    let q : Reference := ⟨.zero, .zero, .zero, List.replicate 326 7⟩
    (∃ e, r.toScript = .ok e ∧ r.data.foldlM push? (marker ++ [0]) = some e ∧ e.length = 181) ∧
      lengthByte? q.binding.signature.length = none ∧ UInt8.ofNat q.binding.signature.length = 70 ∧
      q.toScript = .error .signatureLength := by
  intro r q
  obtain ⟨hok, -, htells⟩ := toScript_tells_lengths r
  obtain ⟨-, hrejected, -⟩ := toScript_tells_lengths q
  have hr : r.binding.signature.length = 72 := List.length_replicate
  have hq : q.binding.signature.length = 326 := List.length_replicate
  obtain ⟨e, he⟩ := hok.2 (by rw [hr]; decide)
  obtain ⟨hpushes, -, hlength, -⟩ := htells e he
  rw [hr] at hlength
  refine ⟨⟨e, he, hpushes, hlength⟩, ?_, ?_, hrejected.2 ?_⟩
  · rw [hq]
    rfl
  · rw [hq]
    rfl
  · rw [hq]
    decide

end Reference

end MinerInfo
