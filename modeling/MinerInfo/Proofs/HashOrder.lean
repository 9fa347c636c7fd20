import Mathlib.Algebra.Ring.Nat
import Mathlib.Data.Finset.Card
import MinerInfo.Hash

/-! The order of hashes. A hash is a number of 256 bits, of which its first byte is the most significant, and hashes are
compared as these numbers. So the order is total, equal only on the same hash, and a list of hashes has one ascending
rearrangement. There each hash that differs from the one before it is greater, so the steps up count the hashes that
differ. -/

namespace MinerInfo

/-- The number that bytes spell, the first byte with the greatest weight. -/
def bigEndian : Bytes → Nat
  | [] => 0
  | byte :: rest => byte.toNat * 256 ^ rest.length + bigEndian rest

theorem bigEndian_lt (bytes : Bytes) : bigEndian bytes < 256 ^ bytes.length := by
  induction bytes with
  | nil => exact Nat.one_pos
  | cons byte rest ih =>
      calc byte.toNat * 256 ^ rest.length + bigEndian rest
        _ < byte.toNat * 256 ^ rest.length + 256 ^ rest.length := Nat.add_lt_add_left ih _
        _ = (byte.toNat + 1) * 256 ^ rest.length := (Nat.succ_mul _ _).symm
        _ ≤ 256 * 256 ^ rest.length := Nat.mul_le_mul_right _ byte.toNat_lt
        _ = 256 ^ (byte :: rest).length := (Nat.pow_succ').symm

/-- A greater first byte outweighs whatever follows in as many bytes. -/
theorem bigEndian_cons_lt {b c : UInt8} {bs cs : Bytes} (h : b < c) (hlen : bs.length = cs.length) :
    bigEndian (b :: bs) < bigEndian (c :: cs) := by
  have hbc : b.toNat + 1 ≤ c.toNat := UInt8.lt_iff_toNat_lt.1 h
  calc b.toNat * 256 ^ bs.length + bigEndian bs
    _ < b.toNat * 256 ^ bs.length + 256 ^ bs.length := Nat.add_lt_add_left (bigEndian_lt bs) _
    _ = (b.toNat + 1) * 256 ^ bs.length := (Nat.succ_mul _ _).symm
    _ ≤ c.toNat * 256 ^ bs.length := Nat.mul_le_mul_right _ hbc
    _ = c.toNat * 256 ^ cs.length := by rw [hlen]
    _ ≤ c.toNat * 256 ^ cs.length + bigEndian cs := Nat.le_add_right _ _

theorem compare_add_left (k m n : Nat) : compare (k + m) (k + n) = compare m n := by
  simp only [Nat.compare_eq_ite_lt, Nat.add_lt_add_iff_left]

/-- Byte by byte, strings of one length compare as the numbers that they spell. -/
theorem compare_bytes {bs cs : Bytes} (hlen : bs.length = cs.length) :
    compare bs cs = compare (bigEndian bs) (bigEndian cs) := by
  induction bs generalizing cs with
  | nil =>
      obtain rfl := List.length_eq_zero_iff.1 hlen.symm
      rfl
  | cons b bs ih =>
      cases cs with
      | nil => cases hlen
      | cons c cs =>
          have hlen' : bs.length = cs.length := Nat.succ.inj hlen
          rw [List.compare_cons_cons, UInt8.compare_eq_toNat_compare_toNat]
          rcases Nat.lt_trichotomy b.toNat c.toNat with h | h | h
          · have hlt := bigEndian_cons_lt (UInt8.lt_iff_toNat_lt.2 h) hlen'
            rw [Nat.compare_eq_lt.2 h, Nat.compare_eq_lt.2 hlt]
            rfl
          · rw [Nat.compare_eq_eq.2 h, ih hlen', bigEndian, bigEndian, h, hlen', compare_add_left]
            rfl
          · have hlt := bigEndian_cons_lt (UInt8.lt_iff_toNat_lt.2 h) hlen'.symm
            rw [Nat.compare_eq_gt.2 h, Nat.compare_eq_gt.2 hlt]
            rfl

namespace Hash

/-- The number of 256 bits that a hash is. -/
def number (h : Hash) : Nat := bigEndian h.bytes

theorem number_lt (h : Hash) : h.number < 2 ^ 256 := by
  have hlt := bigEndian_lt h.bytes
  rw [h.length_bytes] at hlt
  exact hlt

theorem compare_eq (a b : Hash) : compare a b = compare a.number b.number := by
  rw [compare_def, number, number]
  exact compare_bytes (a.length_bytes.trans b.length_bytes.symm)

theorem compare_eq_eq_iff {a b : Hash} : compare a b = .eq ↔ a = b := by
  rw [compare_def, Std.compare_eq_iff_eq, Hash.ext_iff]

theorem isLE_compare_iff {a b : Hash} : (compare a b).isLE ↔ a.number ≤ b.number := by
  rw [compare_eq, Nat.isLE_compare]

theorem compare_eq_lt_iff {a b : Hash} : compare a b = .lt ↔ a.number < b.number := by
  rw [compare_eq, Nat.compare_eq_lt]

theorem number_injective : Function.Injective number := by
  intro a b h
  apply compare_eq_eq_iff.1
  rw [compare_eq, Nat.compare_eq_eq, h]

/-- No hash of the list is greater than one behind it. -/
def Ascending (hs : List Hash) : Prop := hs.Pairwise fun a b => (compare a b).isLE

theorem sorted_perm (hs : List Hash) : (sorted hs).Perm hs := List.mergeSort_perm hs _

theorem ascending_sorted (hs : List Hash) : Ascending (sorted hs) := by
  apply List.pairwise_mergeSort
  · intro a b c hab hbc
    rw [isLE_compare_iff] at hab hbc ⊢
    exact Nat.le_trans hab hbc
  · intro a b
    rw [Bool.or_eq_true, isLE_compare_iff, isLE_compare_iff]
    exact Nat.le_total a.number b.number

theorem Ascending.eq_of_perm {hs ks : List Hash} (hhs : Ascending hs) (hks : Ascending ks) (h : hs.Perm ks) :
    hs = ks := by
  refine List.Perm.eq_of_pairwise ?_ hhs hks h
  intro a b _ _ hab hba
  exact number_injective (Nat.le_antisymm (isLE_compare_iff.1 hab) (isLE_compare_iff.1 hba))

theorem length_eraseDups (hs : List Hash) : hs.eraseDups.length = hs.toFinset.card := by
  induction hn : hs.length using Nat.strongRecOn generalizing hs with
  | ind n ih =>
      cases hs with
      | nil => rfl
      | cons h hs =>
          have hlt : (hs.filter fun k => !k == h).length < n := by
            rw [← hn, List.length_cons]
            exact Nat.lt_succ_of_le (List.length_filter_le _ hs)
          have hset : (h :: hs).toFinset = insert h (hs.filter fun k => !k == h).toFinset := by
            ext k
            by_cases hk : k = h <;> simp [hk]
          rw [List.eraseDups_cons, List.length_cons, ih _ hlt _ rfl, hset, Finset.card_insert_of_notMem (by simp)]

/-- In an ascending list each step up comes to a hash that has not been there before. -/
theorem card_toFinset_of_ascending {h : Hash} {hs : List Hash} (hasc : Ascending (h :: hs)) :
    (h :: hs).toFinset.card = (neighbours (h :: hs)).count .lt + 1 := by
  induction hs generalizing h with
  | nil => rfl
  | cons k hs ih =>
      obtain ⟨hle, hrest⟩ := List.pairwise_cons.1 hasc
      have hneighbours : neighbours (h :: k :: hs) = compare h k :: neighbours (k :: hs) := rfl
      rw [hneighbours, List.toFinset_cons]
      by_cases hk : h = k
      · subst hk
        rw [Finset.insert_eq_of_mem (by simp), ih hrest, compare_eq_eq_iff.2 rfl]
        rfl
      · have hne : h.number ≠ k.number := fun heq => hk (number_injective heq)
        have hlt : h.number < k.number := Nat.lt_of_le_of_ne (isLE_compare_iff.1 (hle k List.mem_cons_self)) hne
        -- were `h` to come again behind `k`, the greater `k` would stand in front of it
        have hnew : h ∉ (k :: hs).toFinset := by
          rw [List.mem_toFinset, List.mem_cons]
          rintro (heq | hmem)
          · exact hk heq
          · have hback := isLE_compare_iff.1 ((List.pairwise_cons.1 hrest).1 h hmem)
            exact Nat.not_lt.2 hback hlt
        rw [Finset.card_insert_of_notMem hnew, ih hrest, compare_eq_lt_iff.2 hlt, List.count_cons_self]

/-- Rearranging a list leaves the number of different hashes as it is. -/
theorem distinct_eq_of_perm {hs ks : List Hash} (h : hs.Perm ks) : distinct hs = distinct ks := by
  rw [distinct, distinct, length_eraseDups, length_eraseDups, List.toFinset_eq_of_perm hs ks h]

theorem distinct_eq_count_steps (hs : List Hash) :
    distinct hs = if hs = [] then 0 else (neighbours (sorted hs)).count .lt + 1 := by
  rw [distinct_eq_of_perm (sorted_perm hs).symm, distinct, length_eraseDups]
  have hnil : hs = [] ↔ sorted hs = [] := by
    rw [← List.length_eq_zero_iff, ← List.length_eq_zero_iff, (sorted_perm hs).length_eq]
  have hasc := ascending_sorted hs
  cases hsorted : sorted hs with
  | nil =>
      rw [if_pos (hnil.2 hsorted)]
      rfl
  | cons h rest =>
      have hne : hs ≠ [] := fun heq => List.cons_ne_nil h rest (hsorted.symm.trans (hnil.1 heq))
      rw [hsorted] at hasc
      rw [if_neg hne, card_toFinset_of_ascending hasc]

/-- The greatest hash with a first byte below 128. -/
def belowHalf : Hash := ⟨0x7f :: List.replicate 31 0xff, rfl⟩

/-- The least hash with a first byte of 128. -/
def half : Hash := ⟨0x80 :: List.replicate 31 0, rfl⟩

/-- Hashes compare as the numbers of 256 bits that their bytes spell from the first on, not as their display forms.
This is a total order, in which only a hash itself is equal to it. A list has one ascending rearrangement, which every
rearrangement of it is sorted to, and there the steps up, and one, are as many as the different hashes. -/
theorem compare_orders_as_numbers :
    (∀ a b : Hash, compare a b = compare a.number b.number ∧ a.number < 2 ^ 256 ∧ (compare a b = .eq ↔ a = b) ∧
      compare b a = (compare a b).swap) ∧
    (∀ a b c : Hash, (compare a b).isLE → (compare b c).isLE → (compare a c).isLE) ∧
    (∃ a b : Hash, compare a b = .lt ∧ compare b.displayHex a.displayHex = .lt) ∧
    ∀ hs : List Hash, (sorted hs).Perm hs ∧ Ascending (sorted hs) ∧
      (∀ ks, ks.Perm hs → Ascending ks → ks = sorted hs) ∧ (∀ ks, ks.Perm hs → sorted ks = sorted hs) ∧
      distinct hs = hs.toFinset.card ∧
      distinct hs = if hs = [] then 0 else (neighbours (sorted hs)).count .lt + 1 := by
  refine ⟨fun a b => ⟨compare_eq a b, number_lt a, compare_eq_eq_iff, ?_⟩, fun a b c hab hbc => ?_, ?_, fun hs => ?_⟩
  · rw [compare_eq, compare_eq, Nat.compare_swap]
  · rw [isLE_compare_iff] at hab hbc ⊢
    exact Nat.le_trans hab hbc
  · exact ⟨belowHalf, half, by decide, by decide⟩
  · have hunique (ks : List Hash) (h : ks.Perm hs) (hks : Ascending ks) : ks = sorted hs :=
      hks.eq_of_perm (ascending_sorted hs) (h.trans (sorted_perm hs).symm)
    refine ⟨sorted_perm hs, ascending_sorted hs, hunique, fun ks h => ?_, length_eraseDups hs,
      distinct_eq_count_steps hs⟩
    exact hunique (sorted ks) ((sorted_perm ks).trans h) (ascending_sorted ks)

/-- A first byte of 128 is greater than one of 127. -/
theorem sorted_around_half :
    (compare zero belowHalf).isLE ∧ (compare belowHalf half).isLE ∧ (compare zero half).isLE ∧
      [belowHalf, half, half].Perm [half, belowHalf, half] ∧ Ascending [belowHalf, half, half] ∧
      sorted [half, belowHalf, half] = [belowHalf, half, half] ∧
      sorted [half, half, belowHalf] = sorted [half, belowHalf, half] ∧ distinct [half, belowHalf, half] = 2 := by
  obtain ⟨-, htrans, -, hlists⟩ := compare_orders_as_numbers
  obtain ⟨-, -, hunique, hreorder, -, hdistinct⟩ := hlists [half, belowHalf, half]
  have hzero : (compare zero belowHalf).isLE := by decide
  have hhalf : (compare belowHalf half).isLE := by decide
  have hperm : [belowHalf, half, half].Perm [half, belowHalf, half] := .swap half belowHalf [half]
  have hperm' : [half, half, belowHalf].Perm [half, belowHalf, half] := .cons half (.swap belowHalf half [])
  have hasc : Ascending [belowHalf, half, half] := by
    unfold Ascending
    decide
  have hsorted := hunique _ hperm hasc
  refine ⟨hzero, hhalf, htrans _ _ _ hzero hhalf, hperm, hasc, hsorted.symm, hreorder _ hperm', ?_⟩
  rw [hdistinct, ← hsorted]
  rfl

end Hash

end MinerInfo
