import Mathlib.Data.List.Forall2
import MinerInfo.Proofs.Extension
import MinerInfo.Proofs.Report

/-! What the verdict on a script depends on: its length and a few bytes, those of the marker, the version and the
length bytes of the pushes. Two scripts that agree in these have the same verdict and the same log, but for the
transaction identifier where it is logged. -/

namespace MinerInfo

open Script

namespace Script

/-- The offsets of the marker, of the version and of the length bytes. -/
def decisive : List Nat := [0, 1, 2, 3, 4, 5, 6, 7, 8, 9, 42, 75, 108]

/-- Two scripts of one length with the same bytes where it matters. -/
structure SameLayout (s t : Bytes) : Prop where
  length_eq : s.length = t.length
  getElem?_eq : ∀ i ∈ decisive, s[i]? = t[i]?

namespace SameLayout

variable {s t : Bytes}

theorem pushFault_eq (h : SameLayout s t) {i : Nat} (hi : i ∈ decisive) (low high : Nat) (otherwise : Rejection) :
    pushFault i low high otherwise s = pushFault i low high otherwise t := by
  rw [pushFault, pushFault, h.getElem?_eq i hi, h.length_eq]

theorem take_eq (h : SameLayout s t) : s.take 8 = t.take 8 := by
  apply List.ext_getElem?
  intro i
  by_cases hi : i < 8
  · rw [List.getElem?_take_of_lt hi, List.getElem?_take_of_lt hi]
    apply h.getElem?_eq
    have hmem : ∀ i < 8, i ∈ decisive := by decide
    exact hmem i hi
  · rw [List.getElem?_take_eq_none (Nat.not_lt.1 hi), List.getElem?_take_eq_none (Nat.not_lt.1 hi)]

theorem firstFault_eq (h : SameLayout s t) : firstFault s = firstFault t := by
  have hheader : headerFault s = headerFault t := by
    rw [headerFault, headerFault, h.length_eq, h.take_eq, h.getElem?_eq 8 (by decide)]
  rw [firstFault, firstFault, bodyFault, bodyFault, hheader, h.pushFault_eq (i := 9) (by decide),
    h.pushFault_eq (i := 42) (by decide), h.pushFault_eq (i := 75) (by decide), h.pushFault_eq (i := 108) (by decide)]

end SameLayout

end Script

namespace Reference

variable {s t : Bytes}

theorem emits_of_no_fault (h : firstFault s = none) :
    ∃ r : Reference, r.StandsIn s ∧
      Emits (parse s) (.ok r) (leftover ⟨s, 109 + (s.getD 108 0).toNat⟩ ++ [.parsed r.txid]) := by
  have hread := obeys_read s
  rw [h] at hread
  obtain ⟨r, _, hr, hstands, rfl⟩ := hread
  exact ⟨r, hstands, emits_parse_of_ok hr⟩

/-- Two entries agree but for the value of the field `name`. -/
def Entry.SameBut (name : Text) (e e' : Entry) : Prop :=
  e.level = e'.level ∧ e.message = e'.message ∧
    List.Forall₂ (fun p q => p.1 = q.1 ∧ (p.1 ≠ name → p.2 = q.2)) e.fields e'.fields

theorem Entry.sameBut_refl (name : Text) (e : Entry) : e.SameBut name e :=
  ⟨rfl, rfl, List.forall₂_same.2 fun _ _ => ⟨rfl, fun _ => rfl⟩⟩

theorem sameBut_parsed (h h' : Hash) : (Entry.parsed h).SameBut "txid".toList (.parsed h') :=
  ⟨rfl, rfl, .cons ⟨rfl, fun hne => absurd rfl hne⟩ .nil⟩

theorem log_debug_of_no_fault (h : firstFault s = none) : log .debug s = [] := by
  obtain ⟨r, -, hemits⟩ := emits_of_no_fault h
  rw [log_of_emits hemits]
  apply upTo_eq_nil
  intro entry hentry
  rw [level_of_mem_report hentry]
  decide

theorem log_of_fault (h : SameLayout s t) {k : Rejection} (hs : firstFault s = some k) (level : Level) :
    log level s = log level t := by
  have ht : firstFault t = some k := h.firstFault_eq ▸ hs
  rw [log_of_emits (emits_of_error (ofScript_of_fault hs)), log_of_emits (emits_of_error (ofScript_of_fault ht)),
    h.length_eq]

/-- Two references read from scripts that are alike are logged alike, and alike in all if they have one identifier. -/
theorem log_of_no_fault (h : SameLayout s t) (hs : firstFault s = none) :
    List.Forall₂ (Entry.SameBut "txid".toList) (log .trace s) (log .trace t) ∧
      (slice s 10 42 = slice t 10 42 → log .trace s = log .trace t) := by
  obtain ⟨r, hr, hemits⟩ := emits_of_no_fault hs
  obtain ⟨q, hq, hemits'⟩ := emits_of_no_fault (h.firstFault_eq ▸ hs)
  have hget : s.getD 108 0 = t.getD 108 0 := by
    rw [List.getD_eq_getElem?_getD, List.getD_eq_getElem?_getD, h.getElem?_eq 108 (by decide)]
  have htrailing : leftover ⟨s, 109 + (s.getD 108 0).toNat⟩ = leftover ⟨t, 109 + (t.getD 108 0).toNat⟩ := by
    rw [leftover, leftover, Cursor.remaining, Cursor.remaining, h.length_eq, hget]
  rw [log_trace_of_emits hemits, log_trace_of_emits hemits', htrailing]
  constructor
  · apply List.rel_append
    · exact List.forall₂_same.2 fun e _ => e.sameBut_refl _
    · exact .cons (sameBut_parsed _ _) .nil
  · intro hslice
    have htxid : r.txid = q.txid := Hash.ext (hr.txid.trans (hslice.trans hq.txid.symm))
    rw [htxid]

/-- Two scripts that are alike in their length and in the bytes at the offsets 0 to 9, 42, 75 and 108 are both read or
both rejected for one reason. They have the same log up to its debug level, and the same full log but for the
identifier, which is the same as well if it is the same in the scripts. -/
theorem ofScript_and_log_of_alike (s t : Bytes) (hlen : s.length = t.length)
    (hbytes : ∀ i ∈ [0, 1, 2, 3, 4, 5, 6, 7, 8, 9, 42, 75, 108], s[i]? = t[i]?) :
    (∀ k, ofScript s = .error k ↔ ofScript t = .error k) ∧
      log .debug s = log .debug t ∧
      List.Forall₂ (Entry.SameBut "txid".toList) (log .trace s) (log .trace t) ∧
      (slice s 10 42 = slice t 10 42 → log .trace s = log .trace t) := by
  have h : SameLayout s t := ⟨hlen, hbytes⟩
  refine ⟨?_, ?_, ?_⟩
  · intro k
    rw [ofScript_eq_error_iff, ofScript_eq_error_iff, h.firstFault_eq]
  · cases hf : firstFault s with
    | some k => exact log_of_fault h hf .debug
    | none => rw [log_debug_of_no_fault hf, log_debug_of_no_fault (h.firstFault_eq ▸ hf)]
  · cases hf : firstFault s with
    | some k =>
        rw [log_of_fault h hf .trace]
        exact ⟨List.forall₂_same.2 fun e _ => e.sameBut_refl _, fun _ => rfl⟩
    | none => exact log_of_no_fault h hf

/-- The blank script and one with other hashes, another signature and the same two bytes behind it. -/
theorem log_of_blank_alike :
    let s := blank ++ [0xde, 0xad]
    let t := marker ++ [0] ++ pushes ⟨⟨List.replicate 32 1, rfl⟩, ⟨List.replicate 32 2, rfl⟩,
      ⟨List.replicate 32 3, rfl⟩, List.replicate 72 4⟩ ++ [0xbe, 0xef]
    s.length = t.length ∧ (∀ i ∈ [0, 1, 2, 3, 4, 5, 6, 7, 8, 9, 42, 75, 108], s[i]? = t[i]?) ∧
      (∀ k, ofScript s = .error k ↔ ofScript t = .error k) ∧
      List.Forall₂ (Entry.SameBut "txid".toList) (log .trace s) (log .trace t) := by
  intro s t
  have hlen : s.length = t.length := by decide +kernel
  have hbytes : ∀ i ∈ [0, 1, 2, 3, 4, 5, 6, 7, 8, 9, 42, 75, 108], s[i]? = t[i]? := by decide +kernel
  obtain ⟨hverdict, -, hlog, -⟩ := ofScript_and_log_of_alike s t hlen hbytes
  exact ⟨hlen, hbytes, hverdict, hlog⟩

end Reference

end MinerInfo
