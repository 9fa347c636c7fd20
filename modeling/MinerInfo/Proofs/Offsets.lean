import MinerInfo.Proofs.Emission

/-! The verdict on a script without a cursor. Every byte that decides it stands at a fixed offset: the marker
in front, the version at 8, the length bytes of the pushes at 9, 42, 75 and 108. A script is rejected for the first
constraint that is broken, and else its fields are what stands between these offsets. -/

namespace MinerInfo

open Script

namespace Script

/-- The bytes of a script from one offset up to another. -/
def slice (s : Bytes) (first past : Nat) : Bytes := (s.drop first).take (past - first)

/-- What is wrong with the push whose length byte stands at offset `i`: it is not there, or not between
`low` and `high`, or fewer bytes follow than it says. -/
def pushFault (i low high : Nat) (otherwise : Rejection) (s : Bytes) : Option Rejection :=
  match s[i]? with
  | none => some .tooShort
  | some n =>
    if n.toNat < low ∨ high < n.toNat then some otherwise
    else if s.length < i + 1 + n.toNat then some .tooShort
    else none

/-- What is wrong with the bytes in front of the pushes. -/
def headerFault (s : Bytes) : Option Rejection :=
  if s.length < 8 ∨ s.take 8 ≠ [0x00, 0x6a, 0x04, 0x60, 0x1d, 0xfa, 0xce, 0x01] then some .noMarker
  else if s.length = 8 then some .tooShort
  else if s[8]? ≠ some 0 then some .unknownVersion
  else none

/-- What is wrong with the pushes, of which each counts only if those before it are in order. -/
def bodyFault (s : Bytes) : Option Rejection :=
  (pushFault 9 32 32 .txidLength s).or <|
    (pushFault 42 32 32 .merkleRootLength s).or <|
      (pushFault 75 32 32 .previousBlockLength s).or <| pushFault 108 70 72 .signatureLength s

/-- The first constraint that a script breaks, by the offsets of its bytes. -/
def firstFault (s : Bytes) : Option Rejection := (headerFault s).or (bodyFault s)

end Script

/-- The fields of a reference are the bytes that stand in a script at their offsets. -/
structure Reference.StandsIn (r : Reference) (s : Bytes) : Prop where
  txid : r.txid.bytes = slice s 10 42
  modifiedMerkleRoot : r.binding.modifiedMerkleRoot.bytes = slice s 43 75
  previousBlock : r.binding.previousBlock.bytes = slice s 76 108
  signature : r.binding.signature = slice s 109 (109 + (s.getD 108 0).toNat)

theorem Script.of_pushFault_eq_none {i low high : Nat} {otherwise : Rejection} {s : Bytes}
    (h : pushFault i low high otherwise s = none) :
    low ≤ (s.getD i 0).toNat ∧ (s.getD i 0).toNat ≤ high ∧ i + 1 + (s.getD i 0).toNat ≤ s.length := by
  rw [pushFault] at h
  split at h
  · cases h
  · rename_i n hi
    split at h
    · cases h
    · split at h
      · cases h
      · rw [List.getD_eq_getElem?_getD, hi, Option.getD_some]
        omega

theorem Reference.StandsIn.eq {r q : Reference} {s : Bytes} (hr : r.StandsIn s) (hq : q.StandsIn s) :
    r = q := by
  obtain ⟨rt, rm, rp, rs⟩ := r
  obtain ⟨qt, qm, qp, qs⟩ := q
  have htxid : rt = qt := Hash.ext (hr.txid.trans hq.txid.symm)
  have hroot : rm = qm := Hash.ext (hr.modifiedMerkleRoot.trans hq.modifiedMerkleRoot.symm)
  have hprevious : rp = qp := Hash.ext (hr.previousBlock.trans hq.previousBlock.symm)
  have hsignature : rs = qs := hr.signature.trans hq.signature.symm
  rw [htxid, hroot, hprevious, hsignature]

namespace Script.Read

variable {α β : Type} {m : Read α} {c : Cursor} {f g : Option Rejection} {P : α → Cursor → Prop}
  {Q : β → Cursor → Prop}

/-- A read ends as a fault tells: rejected for it, or, if there is none, with a result and a cursor of which
`P` holds. -/
def Obeys (m : Read α) (c : Cursor) (f : Option Rejection) (P : α → Cursor → Prop) : Prop :=
  match f with
  | some e => ∃ d, m c = .error e d
  | none => ∃ a d, m c = .ok a d ∧ P a d

/-- Of two reads in sequence the second counts only if the first meets no fault. -/
theorem Obeys.bind {k : α → Read β} (hm : Obeys m c f P) (hk : ∀ a d, P a d → Obeys (k a) d g Q) :
    Obeys (m >>= k) c (f.or g) Q := by
  cases f with
  | some e =>
      obtain ⟨d, hd⟩ := hm
      exact ⟨d, bind_of_error hd⟩
  | none =>
      obtain ⟨a, d, hd, hP⟩ := hm
      have hk' := hk a d hP
      rw [Option.none_or]
      cases g with
      | some e =>
          obtain ⟨d', hd'⟩ := hk'
          exact ⟨d', (bind_of_ok hd).trans hd'⟩
      | none =>
          obtain ⟨b, d', hd', hQ⟩ := hk'
          exact ⟨b, d', (bind_of_ok hd).trans hd', hQ⟩

theorem Obeys.pure {a : α} (h : P a c) : Obeys (Pure.pure a) c none P := ⟨a, c, rfl, h⟩

theorem obeys_push (low high : UInt8) (otherwise : Rejection) (s : Bytes) (i : Nat) :
    Obeys (push low high otherwise) ⟨s, i⟩ (pushFault i low.toNat high.toNat otherwise s) fun data d =>
      data = slice s (i + 1) (i + 1 + (s.getD i 0).toNat) ∧ d = ⟨s, i + 1 + (s.getD i 0).toNat⟩ := by
  have hpush := push_eq low high otherwise ⟨s, i⟩
  rw [Cursor.unread] at hpush
  cases hi : s[i]? with
  | none =>
      rw [List.drop_eq_nil_of_le (List.getElem?_eq_none_iff.1 hi)] at hpush
      simpa only [pushFault, hi] using ⟨_, hpush⟩
  | some n =>
      obtain ⟨hlt, hn⟩ := List.getElem?_eq_some_iff.1 hi
      rw [List.drop_eq_getElem_cons hlt, hn] at hpush
      have hget : (s.getD i 0).toNat = n.toNat := by rw [List.getD_eq_getElem?_getD, hi, Option.getD_some]
      have hrange : (n.toNat < low.toNat ∨ high.toNat < n.toNat) ↔ ¬(low ≤ n ∧ n ≤ high) := by
        rw [UInt8.le_iff_toNat_le, UInt8.le_iff_toNat_le]
        omega
      have hlen : s.length < i + 1 + n.toNat ↔ ¬n.toNat ≤ (s.drop (i + 1)).length := by
        rw [List.length_drop]
        omega
      simp only [pushFault, hi, hrange, hlen, hget]
      by_cases hr : low ≤ n ∧ n ≤ high
      · rw [if_neg (not_not_intro hr)]
        by_cases hl : n.toNat ≤ (s.drop (i + 1)).length
        · rw [if_neg (not_not_intro hl)]
          simp only [if_pos hr, if_pos hl] at hpush
          refine ⟨_, _, hpush, ?_, ?_⟩
          · rw [slice, Nat.add_sub_cancel_left]
          · rw [Cursor.advance, Nat.add_assoc]
        · rw [if_pos hl]
          simp only [if_pos hr, if_neg hl] at hpush
          exact ⟨_, hpush⟩
      · rw [if_pos hr]
        simp only [if_neg hr] at hpush
        exact ⟨_, hpush⟩

theorem obeys_hash (otherwise : Rejection) (s : Bytes) (i : Nat) :
    Obeys (hash otherwise) ⟨s, i⟩ (pushFault i 32 32 otherwise s) fun h d =>
      h.bytes = slice s (i + 1) (i + 33) ∧ d = ⟨s, i + 33⟩ := by
  have hpush := obeys_push hashLength hashLength otherwise s i
  simp only [hashLength, UInt8.reduceToNat] at hpush
  cases hf : pushFault i 32 32 otherwise s with
  | some e =>
      rw [hf] at hpush
      obtain ⟨d, hd⟩ := hpush
      exact ⟨d, bind_of_error hd⟩
  | none =>
      rw [hf] at hpush
      obtain ⟨data, d, hd, rfl, rfl⟩ := hpush
      obtain ⟨hlow, hhigh, hlen⟩ := of_pushFault_eq_none hf
      have hn : (s.getD i 0).toNat = 32 := Nat.le_antisymm hhigh hlow
      rw [hn] at hd hlen
      have hdata : (slice s (i + 1) (i + 33)).length = 32 := by
        rw [slice, List.length_take, List.length_drop]
        omega
      refine ⟨⟨_, hdata⟩, _, (bind_of_ok hd).trans ?_, rfl, rfl⟩
      rw [Hash.ofBytes?, dif_pos hdata]
      rfl

end Script.Read

namespace Reference

theorem marker_prefix_iff (s : Bytes) :
    marker <+: s ↔ ¬(s.length < 8 ∨ s.take 8 ≠ [0x00, 0x6a, 0x04, 0x60, 0x1d, 0xfa, 0xce, 0x01]) := by
  rw [List.prefix_iff_eq_take, length_marker]
  constructor
  · intro h
    have hlen := congrArg List.length h
    rw [length_marker, List.length_take] at hlen
    have htake : s.take 8 = [0x00, 0x6a, 0x04, 0x60, 0x1d, 0xfa, 0xce, 0x01] := h.symm
    rw [not_or]
    exact ⟨by omega, fun hne => hne htake⟩
  · intro h
    rw [not_or] at h
    exact (Decidable.not_not.1 h.2).symm

theorem obeys_header (s : Bytes) :
    Read.Obeys header (.atStart s) (headerFault s) fun _ d => d = ⟨s, 9⟩ := by
  have hmarker := Read.marker_eq marker (.atStart s)
  rw [Cursor.unread_atStart] at hmarker
  rw [header, headerFault]
  by_cases h1 : marker <+: s
  · rw [if_neg ((marker_prefix_iff s).1 h1)]
    rw [if_pos h1] at hmarker
    have hfound : Read.demand (true = true) .noMarker ⟨s, 8⟩ = .ok () ⟨s, 8⟩ := Read.demand_of_pos rfl _
    have hlen : 8 ≤ s.length := h1.length_le
    cases hv : s[8]? with
    | none =>
        rw [if_pos (Nat.le_antisymm (List.getElem?_eq_none_iff.1 hv) hlen)]
        have hbyte : Read.byte ⟨s, 8⟩ = .error .tooShort ⟨s, 8⟩ := by simp only [Read.byte, hv]
        exact ⟨_, (Read.bind_of_ok hmarker).trans <| (Read.bind_of_ok hfound).trans <| Read.bind_of_error hbyte⟩
    | some v =>
        have hlt : 8 < s.length := (List.getElem?_eq_some_iff.1 hv).1
        rw [if_neg (Nat.ne_of_gt hlt)]
        have hbyte : Read.byte ⟨s, 8⟩ = .ok v ⟨s, 9⟩ := by simp only [Read.byte, hv]; rfl
        by_cases h0 : v = 0
        · rw [if_neg (not_not_intro (congrArg some h0))]
          exact ⟨(), _, (Read.bind_of_ok hmarker).trans <| (Read.bind_of_ok hfound).trans <|
            (Read.bind_of_ok hbyte).trans <| Read.demand_of_pos h0 _, rfl⟩
        · rw [if_pos fun h => h0 (Option.some.inj h)]
          exact ⟨_, (Read.bind_of_ok hmarker).trans <| (Read.bind_of_ok hfound).trans <|
            (Read.bind_of_ok hbyte).trans <| Read.demand_of_neg h0 _⟩
  · rw [if_pos (Decidable.not_not.1 (mt (marker_prefix_iff s).2 h1))]
    rw [if_neg h1] at hmarker
    exact ⟨_, (Read.bind_of_ok hmarker).trans (Read.bind_of_error (Read.demand_of_neg Bool.false_ne_true _))⟩

theorem obeys_body (s : Bytes) :
    Read.Obeys body ⟨s, 9⟩ (bodyFault s) fun r d =>
      r.StandsIn s ∧ d = ⟨s, 109 + (s.getD 108 0).toNat⟩ := by
  rw [bodyFault]
  -- a hash that is read leaves the cursor at the length byte of the push after it
  refine (Read.obeys_hash .txidLength s 9).bind ?_
  rintro txid _ ⟨htxid, rfl⟩
  refine (Read.obeys_hash .merkleRootLength s 42).bind ?_
  rintro root _ ⟨hroot, rfl⟩
  refine (Read.obeys_hash .previousBlockLength s 75).bind ?_
  rintro previous _ ⟨hprevious, rfl⟩
  rw [← Option.or_none (o := pushFault 108 70 72 _ s)]
  refine (Read.obeys_push minSignatureLength maxSignatureLength .signatureLength s 108).bind ?_
  rintro signature _ ⟨hsignature, rfl⟩
  exact Read.Obeys.pure ⟨⟨htxid, hroot, hprevious, hsignature⟩, rfl⟩

theorem obeys_read (s : Bytes) :
    Read.Obeys read (.atStart s) (firstFault s) fun r d =>
      r.StandsIn s ∧ d = ⟨s, 109 + (s.getD 108 0).toNat⟩ := by
  rw [read, firstFault]
  refine (obeys_header s).bind ?_
  rintro _ _ rfl
  exact obeys_body s

theorem ofScript_of_fault {s : Bytes} {e : Rejection} (h : firstFault s = some e) :
    ofScript s = .error e := by
  have hread := obeys_read s
  rw [h] at hread
  obtain ⟨d, hd⟩ := hread
  exact ofScript_of_error hd

theorem ofScript_of_no_fault {s : Bytes} (h : firstFault s = none) :
    ∃ r : Reference, ofScript s = .ok r ∧ r.StandsIn s := by
  have hread := obeys_read s
  rw [h] at hread
  obtain ⟨r, d, hd, hr, -⟩ := hread
  exact ⟨r, ofScript_of_ok hd, hr⟩

theorem ofScript_eq_error_iff {s : Bytes} {e : Rejection} : ofScript s = .error e ↔ firstFault s = some e := by
  constructor
  · intro h
    cases hf : firstFault s with
    | some e' =>
        rw [ofScript_of_fault hf] at h
        exact congrArg some (Except.error.inj h)
    | none =>
        obtain ⟨r, hr, -⟩ := ofScript_of_no_fault hf
        rw [hr] at h
        cases h
  · exact ofScript_of_fault

-- of the first push, the length counts before the bytes that are missing
example : ofScript (marker ++ [0, 33]) = .error .txidLength := ofScript_eq_error_iff.2 (by decide)

theorem ofScript_eq_ok_iff {s : Bytes} {r : Reference} :
    ofScript s = .ok r ↔ firstFault s = none ∧ r.StandsIn s := by
  constructor
  · intro h
    cases hf : firstFault s with
    | some e =>
        rw [ofScript_of_fault hf] at h
        cases h
    | none =>
        obtain ⟨q, hq, hs⟩ := ofScript_of_no_fault hf
        rw [hq] at h
        cases h
        exact ⟨rfl, hs⟩
  · rintro ⟨hf, hs⟩
    obtain ⟨q, hq, hs'⟩ := ofScript_of_no_fault hf
    rw [hq, hs'.eq hs]

/-- Reading a script gives the first constraint that it breaks, told by offsets, and if it breaks none, the
reference whose fields stand at their offsets, in the order in which their bytes are written. -/
theorem ofScript_by_offsets (s : Bytes) :
    (∀ e, ofScript s = .error e ↔ firstFault s = some e) ∧
      ∀ r, ofScript s = .ok r ↔ firstFault s = none ∧ r.StandsIn s := by
  constructor
  · intro e
    exact ofScript_eq_error_iff
  · intro r
    exact ofScript_eq_ok_iff

end Reference

end MinerInfo
