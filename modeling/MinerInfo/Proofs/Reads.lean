import MinerInfo.Reference

/-! What each read does, told on the unread bytes alone. A push and a hash have one equation each, with every way
in which they are rejected; a sequence of reads is taken apart by where its first part leaves the cursor.
A read that is not rejected has taken a written form off the front of the unread bytes. -/

namespace MinerInfo.Script

@[simp] theorem Cursor.advance_advance (c : Cursor) (m n : Nat) :
    (c.advance m).advance n = c.advance (m + n) := by
  simp [advance, Nat.add_assoc]

theorem Cursor.position_le_of_unread {c : Cursor} {b : UInt8} {rest : Bytes} (h : c.unread = b :: rest) :
    c.position + 1 ≤ c.script.length := by
  have hlen := c.length_unread
  rw [h, List.length_cons, remaining] at hlen
  omega

/-- Two pieces stand at the front of the unread bytes if the second stands where the first ends. -/
theorem Cursor.append_prefix_unread {c : Cursor} {a b : Bytes} :
    a ++ b <+: c.unread ↔ a <+: c.unread ∧ b <+: (c.advance a.length).unread := by
  rw [unread_advance]
  constructor
  · rintro ⟨rest, hrest⟩
    rw [← hrest, List.append_assoc]
    exact ⟨List.prefix_append _ _, by simp⟩
  · rintro ⟨⟨rest, hrest⟩, hb⟩
    rw [← hrest] at hb ⊢
    simpa using hb

namespace Read

variable {α β : Type}

theorem bind_of_ok {m : Read α} {f : α → Read β} {a : α} {c d : Cursor} (h : m c = .ok a d) :
    (m >>= f) c = f a d := by
  simp [bind, EStateM.bind, h]

theorem bind_of_error {m : Read α} {f : α → Read β} {e : Rejection} {c d : Cursor}
    (h : m c = .error e d) : (m >>= f) c = .error e d := by
  simp [bind, EStateM.bind, h]

theorem bind_eq_ok_iff {m : Read α} {f : α → Read β} {b : β} {c d : Cursor} :
    (m >>= f) c = .ok b d ↔ ∃ a c', m c = .ok a c' ∧ f a c' = .ok b d := by
  constructor
  · intro hb
    cases h : m c with
    | ok a c' => exact ⟨a, c', rfl, (bind_of_ok h).symm.trans hb⟩
    | error e c' => simp [bind_of_error h] at hb
  · rintro ⟨a, c', h, hb⟩
    rw [bind_of_ok h, hb]

theorem pure_eq_ok_iff {a b : α} {c d : Cursor} :
    (pure a : Read α) c = .ok b d ↔ a = b ∧ c = d := by
  simp [pure, EStateM.pure]

theorem ok_of_ite {p : Prop} [Decidable p] {x : EStateM.Result Rejection Cursor α} {e : Rejection} {a : α}
    {c d : Cursor} (h : (if p then x else .error e c) = .ok a d) : p ∧ x = .ok a d := by
  split at h
  · exact ⟨‹p›, h⟩
  · cases h

def demand (p : Prop) [Decidable p] (otherwise : Rejection) : Read Unit :=
  if p then pure () else throw otherwise

theorem demand_of_pos {p : Prop} [Decidable p] {otherwise : Rejection} (h : p) (c : Cursor) :
    demand p otherwise c = .ok () c := by
  rw [demand, if_pos h]
  rfl

theorem demand_of_neg {p : Prop} [Decidable p] {otherwise : Rejection} (h : ¬p) (c : Cursor) :
    demand p otherwise c = .error otherwise c := by
  rw [demand, if_neg h]
  rfl

theorem demand_eq_ok_iff {p : Prop} [Decidable p] {otherwise : Rejection} {u : Unit} {c d : Cursor} :
    demand p otherwise c = .ok u d ↔ p ∧ c = d := by
  by_cases h : p
  · rw [demand_of_pos h]
    simp [h]
  · rw [demand_of_neg h]
    simp [h]

theorem push_eq (low high : UInt8) (otherwise : Rejection) (c : Cursor) :
    push low high otherwise c = match c.unread with
      | [] => .error .tooShort c
      | n :: rest =>
        if low ≤ n ∧ n ≤ high then
          if n.toNat ≤ rest.length then .ok (rest.take n.toNat) (c.advance (1 + n.toNat))
          else .error .tooShort (c.advance 1)
        else .error otherwise (c.advance 1) := by
  have hbyte := byte_eq c
  rw [push, pushBy]
  cases hu : c.unread with
  | nil =>
      rw [hu] at hbyte
      exact bind_of_error hbyte
  | cons n rest =>
      rw [hu] at hbyte
      rw [bind_of_ok hbyte]
      have hrest : (c.advance 1).unread = rest := by rw [Cursor.unread_advance, hu, List.drop_one, List.tail_cons]
      by_cases hrange : low ≤ n ∧ n ≤ high
      · have hlen : (c.advance 1).remaining = rest.length := by rw [← Cursor.length_unread, hrest]
        simp only [if_pos hrange]
        rw [bytes_eq _ _ (Cursor.position_le_of_unread hu), hrest, hlen, Cursor.advance_advance]
      · simp only [if_neg hrange]
        rfl

theorem hash_eq_push_bind (otherwise : Rejection) :
    hash otherwise = push hashLength hashLength otherwise >>= fun data =>
      match Hash.ofBytes? data with
      | some h => pure h
      | none => throw otherwise := rfl

theorem hash_eq (otherwise : Rejection) (c : Cursor) :
    hash otherwise c = match c.unread with
      | [] => .error .tooShort c
      | n :: rest =>
        if n = 32 then
          if h : 32 ≤ rest.length then .ok ⟨rest.take 32, List.length_take_of_le h⟩ (c.advance 33)
          else .error .tooShort (c.advance 1)
        else .error otherwise (c.advance 1) := by
  have hpush := push_eq hashLength hashLength otherwise c
  have hrange (n : UInt8) : hashLength ≤ n ∧ n ≤ hashLength ↔ n = 32 :=
    ⟨fun h => UInt8.le_antisymm h.2 h.1, fun h => h ▸ ⟨UInt8.le_refl _, UInt8.le_refl _⟩⟩
  rw [hash_eq_push_bind]
  cases hu : c.unread with
  | nil =>
      rw [hu] at hpush
      exact bind_of_error hpush
  | cons n rest =>
      simp only [hu, hrange] at hpush ⊢
      by_cases hn : n = 32
      · subst hn
        by_cases hlen : 32 ≤ rest.length
        · simp only [if_pos, UInt8.reduceToNat, hlen] at hpush
          rw [bind_of_ok hpush]
          simp only [Hash.ofBytes?, List.length_take_of_le hlen, dif_pos, if_pos, hlen]
          rfl
        · simp only [if_pos, UInt8.reduceToNat, if_neg hlen] at hpush
          rw [bind_of_error hpush]
          simp only [if_pos, dif_neg hlen]
      · simp only [if_neg hn] at hpush ⊢
        exact bind_of_error hpush

theorem marker_eq_ok_true_iff {m : Bytes} {c d : Cursor} :
    marker m c = .ok true d ↔ m <+: c.unread ∧ d = c.advance m.length := by
  rw [marker_eq]
  by_cases h : m <+: c.unread
  · simp [h, eq_comm]
  · simp [h]

theorem byte_eq_ok_iff {b : UInt8} {c d : Cursor} :
    byte c = .ok b d ↔ [b] <+: c.unread ∧ d = c.advance 1 := by
  rw [byte_eq]
  cases c.unread with
  | nil => simp
  | cons n rest =>
      simp only [EStateM.Result.ok.injEq, List.cons_prefix_cons, List.nil_prefix, and_true]
      exact and_congr eq_comm eq_comm

/-- A push is read where its written form stands. -/
theorem push_eq_ok_iff {low high : UInt8} {otherwise : Rejection} {data : Bytes} {c d : Cursor} :
    push low high otherwise c = .ok data d ↔
      (low.toNat ≤ data.length ∧ data.length ≤ high.toNat) ∧ Script.push [] data <+: c.unread ∧
        d = c.advance (Script.push [] data).length := by
  rw [push_eq]
  cases c.unread with
  | nil => simp [Script.push]
  | cons n rest =>
      dsimp only
      constructor
      · intro h
        obtain ⟨hrange, h⟩ := ok_of_ite h
        obtain ⟨hlen, h⟩ := ok_of_ite h
        simp only [EStateM.Result.ok.injEq] at h
        obtain ⟨rfl, rfl⟩ := h
        have htake : (rest.take n.toNat).length = n.toNat := List.length_take_of_le hlen
        refine ⟨?_, ?_, ?_⟩
        · rw [htake]
          exact ⟨UInt8.le_iff_toNat_le.1 hrange.1, UInt8.le_iff_toNat_le.1 hrange.2⟩
        · simp [Script.push, htake, List.take_prefix]
        · rw [length_push, htake, List.length_nil, Nat.zero_add]
      · rintro ⟨⟨hlow, hhigh⟩, hpre, rfl⟩
        rw [Script.push, List.nil_append, List.cons_prefix_cons] at hpre
        obtain ⟨hn, rest', rfl⟩ := hpre
        have htoNat : n.toNat = data.length := by
          rw [← hn, UInt8.toNat_ofNat_of_lt' (Nat.lt_of_le_of_lt hhigh high.toNat_lt)]
        rw [if_pos ⟨UInt8.le_iff_toNat_le.2 (htoNat ▸ hlow), UInt8.le_iff_toNat_le.2 (htoNat ▸ hhigh)⟩,
          htoNat, if_pos (by simp)]
        simp

theorem hash_eq_ok_iff {otherwise : Rejection} {h : Hash} {c d : Cursor} :
    hash otherwise c = .ok h d ↔
      Script.push [] h.bytes <+: c.unread ∧ d = c.advance (Script.push [] h.bytes).length := by
  have hrange : hashLength.toNat ≤ h.bytes.length ∧ h.bytes.length ≤ hashLength.toNat := by
    simp [h.length_bytes, hashLength]
  rw [hash_eq_push_bind, bind_eq_ok_iff]
  simp only [push_eq_ok_iff]
  constructor
  · rintro ⟨data, c', ⟨-, hpre, rfl⟩, hd⟩
    cases hx : Hash.ofBytes? data with
    | none =>
        rw [hx] at hd
        cases hd
    | some x =>
        rw [hx] at hd
        obtain ⟨rfl, rfl⟩ := pure_eq_ok_iff.1 hd
        rw [Hash.bytes_of_ofBytes? hx]
        exact ⟨hpre, rfl⟩
  · rintro ⟨hpre, rfl⟩
    refine ⟨h.bytes, _, ⟨hrange, hpre, rfl⟩, ?_⟩
    rw [Hash.ofBytes?_bytes]
    rfl

end Read

end MinerInfo.Script

namespace MinerInfo.Reference

open Script

/-- Reads what stands in front of the pushes. -/
def header : Read Unit := do
  let found ← Read.marker marker
  Read.demand (found = true) .noMarker
  let version ← Read.byte
  Read.demand (version = 0) .unknownVersion

def body : Read Reference := do
  let txid ← Read.hash .txidLength
  let modifiedMerkleRoot ← Read.hash .merkleRootLength
  let previousBlock ← Read.hash .previousBlockLength
  let signature ← Read.push minSignatureLength maxSignatureLength .signatureLength
  return ⟨txid, modifiedMerkleRoot, previousBlock, signature⟩

/-- Reads a reference, without a log. -/
def read : Read Reference := do
  header
  body

end MinerInfo.Reference
