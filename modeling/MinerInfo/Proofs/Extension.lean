import MinerInfo.Proofs.Duality
import MinerInfo.Proofs.Offsets

/-! What more bytes can change. A script that is too short is one that further bytes can still make valid: filling
it up from a blank script completes it, wherever it ends. Every other verdict is reached before the end of the
script and stays as it is, whatever follows. -/

namespace MinerInfo.Script

/-- Any fault but a missing end, and the lack of a fault, are there as well when the script goes on. -/
def Lasts (f : Bytes → Option Rejection) : Prop :=
  ∀ s t, f s ≠ some .tooShort → f (s ++ t) = f s

theorem or_eq_or {f g f' g' : Option Rejection} (hf : f ≠ some .tooShort → f' = f)
    (hg : g ≠ some .tooShort → g' = g) (h : f.or g ≠ some .tooShort) : f'.or g' = f.or g := by
  cases f with
  | some e =>
      rw [Option.some_or] at h
      rw [hf h, Option.some_or, Option.some_or]
  | none =>
      rw [Option.none_or] at h
      rw [hf (by simp), hg h]

theorem Lasts.or {f g : Bytes → Option Rejection} (hf : Lasts f) (hg : Lasts g) :
    Lasts fun s => (f s).or (g s) := by
  intro s t h
  exact or_eq_or (hf s t) (hg s t) h

theorem lasts_pushFault (i low high : Nat) (otherwise : Rejection) :
    Lasts (pushFault i low high otherwise) := by
  intro s t h
  cases hi : s[i]? with
  | none =>
      simp only [pushFault, hi] at h
      exact absurd rfl h
  | some n =>
      have hlt : i < s.length := (List.getElem?_eq_some_iff.1 hi).1
      have happend : (s ++ t)[i]? = some n := by rw [List.getElem?_append_left hlt, hi]
      simp only [pushFault, hi, happend] at h ⊢
      by_cases hrange : n.toNat < low ∨ high < n.toNat
      · rw [if_pos hrange, if_pos hrange]
      · rw [if_neg hrange] at h
        rw [if_neg hrange, if_neg hrange]
        by_cases hlen : s.length < i + 1 + n.toNat
        · rw [if_pos hlen] at h
          exact absurd rfl h
        · have hlen' : ¬(s ++ t).length < i + 1 + n.toNat := by
            rw [List.length_append]
            omega
          rw [if_neg hlen, if_neg hlen']

theorem lasts_bodyFault : Lasts bodyFault :=
  (lasts_pushFault 9 32 32 _).or <| (lasts_pushFault 42 32 32 _).or <|
    (lasts_pushFault 75 32 32 _).or <| lasts_pushFault 108 70 72 _

theorem headerFault_append {s : Bytes} (t : Bytes) (hlen : 8 ≤ s.length) (h : headerFault s ≠ some .tooShort) :
    headerFault (s ++ t) = headerFault s := by
  have htake : (s ++ t).take 8 = s.take 8 := List.take_append_of_le_length hlen
  have hlen' : 8 ≤ (s ++ t).length := Nat.le_trans hlen (List.length_append ▸ Nat.le_add_right _ _)
  simp only [headerFault, htake, Nat.not_lt.2 hlen, Nat.not_lt.2 hlen', false_or] at h ⊢
  by_cases hm : s.take 8 ≠ [0x00, 0x6a, 0x04, 0x60, 0x1d, 0xfa, 0xce, 0x01]
  · rw [if_pos hm, if_pos hm]
  · rw [if_neg hm] at h
    rw [if_neg hm, if_neg hm]
    by_cases he : s.length = 8
    · rw [if_pos he] at h
      exact absurd rfl h
    · have he' : (s ++ t).length ≠ 8 := by
        rw [List.length_append]
        omega
      rw [if_neg he, if_neg he', List.getElem?_append_left (by omega)]

theorem firstFault_append {s : Bytes} (t : Bytes) (hlen : 8 ≤ s.length) (h : firstFault s ≠ some .tooShort) :
    firstFault (s ++ t) = firstFault s := by
  rw [firstFault, firstFault]
  exact or_eq_or (headerFault_append t hlen) (lasts_bodyFault s t) h

/-- A script of zeros, with a signature of the greatest length. -/
def blank : Bytes :=
  marker ++ [0] ++ Reference.pushes ⟨.zero, .zero, .zero, List.replicate 72 0⟩

/-- A script filled up with the rest of the blank one. -/
def completed (s : Bytes) : Bytes := s ++ blank.drop s.length

theorem length_blank : blank.length = 181 := by
  rw [blank, List.length_append, Reference.length_pushes, List.length_replicate]
  rfl

theorem length_completed (s : Bytes) : 181 ≤ (completed s).length := by
  rw [completed, List.length_append, List.length_drop, length_blank]
  omega

theorem getElem?_completed {s : Bytes} {i : Nat} (h : s.length ≤ i) : (completed s)[i]? = blank[i]? := by
  rw [completed, List.getElem?_append_right h, List.getElem?_drop, Nat.add_sub_cancel' h]

/-- Filling up a script that is only too short leaves it without a fault. -/
def Completes (f : Bytes → Option Rejection) : Prop :=
  ∀ s, f s = some .tooShort → f (completed s) = none

theorem Completes.or {f g : Bytes → Option Rejection} (hf : Completes f) (hlast : Lasts f) (hg : Completes g)
    (hcut : ∀ s, f s = some .tooShort → g s = some .tooShort) : Completes fun s => (f s).or (g s) := by
  intro s h
  dsimp only at h ⊢
  have hg' : g s = some .tooShort := by
    rcases Option.or_eq_some_iff.1 h with hs | ⟨-, hs⟩
    · exact hcut s hs
    · exact hs
  have hf' : f (completed s) = none := by
    rcases Option.or_eq_some_iff.1 h with hs | ⟨hs, -⟩
    · exact hf s hs
    · rw [completed, hlast s _ (by simp [hs]), hs]
  rw [hf', hg s hg', Option.none_or]

theorem completes_pushFault {i low high : Nat} {otherwise : Rejection} {b : UInt8} (hb : blank[i]? = some b)
    (hlow : low ≤ b.toNat) (hhigh : b.toNat ≤ high) (hend : i + 1 + high ≤ 181) (hne : otherwise ≠ .tooShort) :
    Completes (pushFault i low high otherwise) := by
  intro s h
  have hlen := length_completed s
  cases hi : s[i]? with
  | none =>
      have hget := getElem?_completed (List.getElem?_eq_none_iff.1 hi)
      simp only [pushFault, hget, hb]
      rw [if_neg (by omega), if_neg (by omega)]
  | some n =>
      have hget : (completed s)[i]? = some n := by
        rw [completed, List.getElem?_append_left (List.getElem?_eq_some_iff.1 hi).1, hi]
      simp only [pushFault, hi] at h
      simp only [pushFault, hget]
      split at h
      · exact absurd (Option.some.inj h) hne
      · rename_i hrange
        rw [if_neg hrange, if_neg (by omega)]

theorem pushFault_of_length_le {i low high : Nat} {otherwise : Rejection} {s : Bytes} (h : s.length ≤ i) :
    pushFault i low high otherwise s = some .tooShort := by
  simp only [pushFault, List.getElem?_eq_none h]

theorem length_lt_of_pushFault {i low high : Nat} {otherwise : Rejection} {s : Bytes} (hne : otherwise ≠ .tooShort)
    (h : pushFault i low high otherwise s = some .tooShort) : s.length < i + 1 + high := by
  rw [pushFault] at h
  split at h
  · rename_i hi
    have := List.getElem?_eq_none_iff.1 hi
    omega
  · split at h
    · exact absurd (Option.some.inj h) hne
    · split at h
      · omega
      · cases h

theorem completes_bodyFault : Completes bodyFault := by
  have h9 : Completes (pushFault 9 32 32 .txidLength) :=
    completes_pushFault (b := 32) rfl (by decide) (by decide) (by decide) (by decide)
  have h42 : Completes (pushFault 42 32 32 .merkleRootLength) :=
    completes_pushFault (b := 32) rfl (by decide) (by decide) (by decide) (by decide)
  have h75 : Completes (pushFault 75 32 32 .previousBlockLength) :=
    completes_pushFault (b := 32) rfl (by decide) (by decide) (by decide) (by decide)
  have h108 : Completes (pushFault 108 70 72 .signatureLength) :=
    completes_pushFault (b := 72) rfl (by decide) (by decide) (by decide) (by decide)
  -- a script that ends inside one push has no length byte of the next
  refine h9.or (lasts_pushFault 9 32 32 _) (h42.or (lasts_pushFault 42 32 32 _)
    (h75.or (lasts_pushFault 75 32 32 _) h108 fun s h => ?_) fun s h => ?_) fun s h => ?_
  · have hlen := length_lt_of_pushFault (by decide) h
    exact pushFault_of_length_le (by omega)
  · have hlen := length_lt_of_pushFault (by decide) h
    rw [pushFault_of_length_le (by omega), Option.some_or]
  · have hlen := length_lt_of_pushFault (by decide) h
    rw [pushFault_of_length_le (by omega), Option.some_or]

theorem length_of_headerFault {s : Bytes} (h : headerFault s = none ∨ headerFault s = some .tooShort) :
    8 ≤ s.length := by
  by_cases hlen : s.length < 8
  · rw [headerFault, if_pos (Or.inl hlen)] at h
    simp at h
  · exact Nat.not_lt.1 hlen

theorem eq_marker_of_headerFault {s : Bytes} (h : headerFault s = some .tooShort) : s = marker := by
  rw [headerFault] at h
  split at h
  · cases h
  · rename_i hm
    rw [not_or, Decidable.not_not] at hm
    split at h
    · rename_i hlen
      rw [← List.take_of_length_le (Nat.le_of_eq hlen), hm.2]
      rfl
    · split at h <;> cases h

theorem firstFault_completed {s : Bytes} (h : firstFault s = some .tooShort) : firstFault (completed s) = none := by
  rw [firstFault] at h ⊢
  rcases Option.or_eq_some_iff.1 h with hs | ⟨hs, hbody⟩
  -- with the marker alone even the version comes from the blank script
  · obtain rfl := eq_marker_of_headerFault hs
    have hbody : bodyFault (completed marker) = none := completes_bodyFault marker rfl
    have hblank : completed marker = marker ++ [0] ++ (blank.drop 9) := by
      rw [completed, blank, List.append_assoc, length_marker, List.drop_left' length_marker]
      rfl
    have hheader : headerFault (marker ++ [0]) = none := by decide
    rw [hbody, Option.or_none, hblank, headerFault_append _ (by decide) (by simp [hheader]), hheader]
  · have hlen := length_of_headerFault (Or.inl hs)
    rw [completed, headerFault_append _ hlen (by simp [hs]), hs, Option.none_or]
    exact completes_bodyFault s hbody

end MinerInfo.Script

namespace MinerInfo.Reference

open Script

theorem length_of_tooShort {s : Bytes} (h : ofScript s = .error .tooShort) : 8 ≤ s.length := by
  have hf := ofScript_eq_error_iff.1 h
  rw [firstFault] at hf
  rcases Option.or_eq_some_iff.1 hf with hs | ⟨hs, -⟩
  · exact length_of_headerFault (Or.inr hs)
  · exact length_of_headerFault (Or.inl hs)

theorem ofScript_append {s : Bytes} (t : Bytes) (hlen : 8 ≤ s.length) (h : ofScript s ≠ .error .tooShort) :
    ofScript (s ++ t) = ofScript s := by
  cases hs : ofScript s with
  | ok r =>
      obtain ⟨e, he, hpre⟩ := prefix_of_ofScript hs
      exact ofScript_of_toScript he (hpre.trans (List.prefix_append s t))
  | error e =>
      have hf := ofScript_eq_error_iff.1 hs
      rw [ofScript_eq_error_iff, firstFault_append t hlen (mt ofScript_eq_error_iff.2 h), hf]

theorem exists_script_of_tooShort {s : Bytes} (h : ofScript s = .error .tooShort) :
    ∃ (r : Reference) (e : Bytes), r.toScript = .ok e ∧ s <+: e ∧ s ≠ e := by
  obtain ⟨r, hr, -⟩ := ofScript_of_no_fault (firstFault_completed (ofScript_eq_error_iff.1 h))
  obtain ⟨e, he, hpre⟩ := prefix_of_ofScript hr
  have hnot : ¬e <+: s := by
    intro hes
    rw [ofScript_of_toScript he hes] at h
    cases h
  have hse : s <+: e := (List.prefix_or_prefix_of_prefix hpre (List.prefix_append s _)).resolve_left hnot
  exact ⟨r, e, he, hse, fun heq => hnot (heq ▸ List.prefix_refl s)⟩

theorem tooShort_of_toScript {s e : Bytes} {r : Reference} (hlen : 8 ≤ s.length) (he : r.toScript = .ok e)
    (hpre : s <+: e) (hne : s ≠ e) : ofScript s = .error .tooShort := by
  obtain ⟨t, rfl⟩ := hpre
  -- any other verdict would be that on `e`, so `s` would hold a whole script of `r`
  apply Classical.byContradiction
  intro h
  have hr : ofScript s = .ok r := by
    rw [← ofScript_append t hlen h, ofScript_of_toScript he (List.prefix_refl _)]
  obtain ⟨e', he', hpre'⟩ := prefix_of_ofScript hr
  cases he.symm.trans he'
  exact hne (hpre'.eq_of_length_le (List.prefix_append s t).length_le).symm

/-- A script is too short exactly if it lacks an end that some reference's script has, and then is at least
as long as the marker. Any other verdict on a script of that length is final. -/
theorem tooShort_iff_and_ofScript_append (s : Bytes) :
    (ofScript s = .error .tooShort ↔
      8 ≤ s.length ∧ ∃ (r : Reference) (e : Bytes), r.toScript = .ok e ∧ s <+: e ∧ s ≠ e) ∧
    (8 ≤ s.length → ofScript s ≠ .error .tooShort → ∀ t, ofScript (s ++ t) = ofScript s) := by
  refine ⟨⟨?_, ?_⟩, ?_⟩
  · intro h
    exact ⟨length_of_tooShort h, exists_script_of_tooShort h⟩
  · rintro ⟨hlen, r, e, he, hpre, hne⟩
    exact tooShort_of_toScript hlen he hpre hne
  · intro hlen h t
    exact ofScript_append t hlen h

theorem ofScript_blank_append :
    8 ≤ blank.length ∧ ofScript blank ≠ .error .tooShort ∧
      ofScript (blank ++ [0xde, 0xad]) = ofScript blank := by
  have hwritable : Writable ⟨.zero, .zero, .zero, List.replicate 72 0⟩ := ⟨by decide, by decide⟩
  have hok := ofScript_of_toScript (toScript_of_writable hwritable) (List.prefix_refl blank)
  have hlen : 8 ≤ blank.length := by
    rw [length_blank]
    decide
  have hne : ofScript blank ≠ .error .tooShort := by simp [hok]
  exact ⟨hlen, hne, (tooShort_iff_and_ofScript_append blank).2 hlen hne [0xde, 0xad]⟩

end MinerInfo.Reference
