import Mathlib.Data.List.Basic
import MinerInfo.Inspection
import MinerInfo.Proofs.DisplayForm

/-! The texts shown for bindings and references tell them apart. Between fixed words a hash takes up a fixed number of
characters, so it can be cut off from what follows. A signature is shown by its digits up to the end of the text, and it
is inspected as a list of decimal numbers: these are the runs of digits of the text that is left, on one line and on
many. -/

namespace MinerInfo

namespace Text

/-- The numbers that stand in a text: its longest runs of decimal digits. -/
def numbers (t : Text) : List Text := (t.splitOnP fun c => !c.isDigit).filter (· ≠ [])

theorem numbers_append_cons {c : Char} (hc : c.isDigit = false) (s t : Text) :
    numbers (s ++ c :: t) = numbers s ++ numbers t := by
  rw [numbers, List.splitOnP_append_cons s t (by rw [hc]; rfl), List.filter_append]
  rfl

theorem numbers_nil : numbers [] = [] := by
  rw [numbers, List.splitOnP_nil]
  rfl

theorem numbers_of_digits {s : Text} (hne : s ≠ []) (h : ∀ c ∈ s, c.isDigit = true) : numbers s = [s] := by
  rw [numbers, List.splitOnP_eq_singleton fun c hc => by rw [h c hc]; rfl]
  simp [hne]

/-- Characters that are no digits, in front of a text, add no number to it. -/
theorem numbers_append_of_no_digit {s : Text} (h : ∀ c ∈ s, c.isDigit = false) (t : Text) :
    numbers (s ++ t) = numbers t := by
  induction s with
  | nil => rfl
  | cons c s ih =>
      obtain ⟨hc, hs⟩ := List.forall_mem_cons.1 h
      have hcut := numbers_append_cons hc [] (s ++ t)
      rw [numbers_nil, List.nil_append, List.nil_append, ih hs] at hcut
      exact hcut

theorem numbers_digits_append {s : Text} (hne : s ≠ []) (h : ∀ c ∈ s, c.isDigit = true) {c : Char}
    (hc : c.isDigit = false) (t : Text) : numbers (s ++ c :: t) = s :: numbers t := by
  rw [numbers_append_cons hc, numbers_of_digits hne h]
  rfl

end Text

namespace Outline

open Text

/-- A byte as it is inspected. -/
def decimal (byte : UInt8) : Text := Nat.toDigits 10 byte.toNat

def decimals (bytes : Bytes) : List Outline := bytes.map fun byte => .word (decimal byte)

theorem decimal_ne_nil (byte : UInt8) : decimal byte ≠ [] := Nat.toDigits_ne_nil

theorem isDigit_of_mem_decimal {byte : UInt8} : ∀ c ∈ decimal byte, c.isDigit = true :=
  fun _ hc => Nat.isDigit_of_mem_toDigits (by decide) (by decide) hc

theorem decimal_injective : Function.Injective decimal := by
  intro a b h
  apply UInt8.toNat_inj.1
  calc
    a.toNat = Nat.ofDigitChars 10 (decimal a) 0 := Nat.ofDigitChars_ten_toDigits.symm
    _ = Nat.ofDigitChars 10 (decimal b) 0 := by rw [h]
    _ = b.toNat := Nat.ofDigitChars_ten_toDigits

theorem numbers_decimal_append (byte : UInt8) {c : Char} (hc : c.isDigit = false) (t : Text) :
    numbers (decimal byte ++ c :: t) = decimal byte :: numbers t :=
  numbers_digits_append (decimal_ne_nil byte) isDigit_of_mem_decimal hc t

theorem numbers_newLine (depth : Nat) (t : Text) : numbers (newLine depth ++ t) = numbers t := by
  apply numbers_append_of_no_digit
  intro c hc
  rcases List.mem_cons.1 hc with rfl | hc
  · rfl
  · rw [List.eq_of_mem_replicate hc]
    rfl

theorem numbers_inlineItems (bytes : Bytes) {c : Char} (hc : c.isDigit = false) (t : Text) :
    numbers (inlineItems (decimals bytes) ++ c :: t) = bytes.map decimal ++ numbers t := by
  induction bytes with
  | nil => exact numbers_append_of_no_digit (List.forall_mem_singleton.2 hc) t
  | cons byte bytes ih =>
      cases bytes with
      | nil => exact numbers_decimal_append byte hc t
      | cons byte' bytes =>
          have htext : inlineItems (decimals (byte :: byte' :: bytes)) ++ c :: t =
              decimal byte ++ ',' :: ([' '] ++ (inlineItems (decimals (byte' :: bytes)) ++ c :: t)) := by
            simp [decimals, inlineItems, inline]
          rw [htext, numbers_decimal_append byte rfl, numbers_append_of_no_digit (List.forall_mem_singleton.2 rfl), ih]
          rfl

theorem numbers_indentedItems (depth : Nat) (bytes : Bytes) (t : Text) :
    numbers (indentedItems depth (decimals bytes) ++ t) = bytes.map decimal ++ numbers t := by
  induction bytes with
  | nil => rfl
  | cons byte bytes ih =>
      have htext : indentedItems depth (decimals (byte :: bytes)) ++ t =
          newLine depth ++ (decimal byte ++ ',' :: (indentedItems depth (decimals bytes) ++ t)) := by
        simp [decimals, indentedItems, indented]
      rw [htext, numbers_newLine, numbers_decimal_append byte rfl, ih]
      rfl

theorem numbers_inline_list (bytes : Bytes) (t : Text) :
    numbers ((list (decimals bytes)).inline ++ t) = bytes.map decimal ++ numbers t := by
  calc
    numbers ((list (decimals bytes)).inline ++ t)
      = numbers (['['] ++ (inlineItems (decimals bytes) ++ ']' :: t)) := by simp [Outline.inline]
    _ = numbers (inlineItems (decimals bytes) ++ ']' :: t) :=
      numbers_append_of_no_digit (List.forall_mem_singleton.2 rfl) _
    _ = bytes.map decimal ++ numbers t := numbers_inlineItems bytes rfl t

theorem numbers_indented_list (depth : Nat) (bytes : Bytes) (t : Text) :
    numbers ((list (decimals bytes)).indented depth ++ t) = bytes.map decimal ++ numbers t := by
  -- an empty list has no line of its own
  cases bytes with
  | nil => exact numbers_append_of_no_digit (List.forall_mem_cons.2 ⟨rfl, List.forall_mem_singleton.2 rfl⟩) t
  | cons byte bytes =>
      have htext : (list (decimals (byte :: bytes))).indented depth ++ t =
          ['['] ++ (indentedItems (depth + 1) (decimals (byte :: bytes)) ++ (newLine depth ++ ([']'] ++ t))) := by
        simp [decimals, indented]
      rw [htext, numbers_append_of_no_digit (List.forall_mem_singleton.2 rfl), numbers_indentedItems, numbers_newLine,
        numbers_append_of_no_digit (List.forall_mem_singleton.2 rfl)]

/-- Signatures that are laid out as lists are told apart by the numbers of the text, whatever follows them. -/
theorem eq_of_numbers {f : Bytes → Text} {t : Text}
    (hf : ∀ bytes, numbers (f bytes ++ t) = bytes.map decimal ++ numbers t) {a b : Bytes}
    (h : f a ++ t = f b ++ t) : a = b := by
  have hnumbers := congrArg numbers h
  rw [hf, hf] at hnumbers
  exact List.map_injective_iff.2 decimal_injective (List.append_cancel_right hnumbers)

variable (name label label' label'' : Text) (u v w : Outline)

theorem inline_record_two : (record name [(label, u), (label', v)]).inline =
    (name ++ [' ', '\x7b', ' '] ++ label ++ [':', ' ']) ++ (u.inline ++
      (([',', ' '] ++ label' ++ [':', ' ']) ++ (v.inline ++ [' ', '\x7d']))) := by
  simp [Outline.inline, inlineFields]

theorem inline_record_three : (record name [(label, u), (label', v), (label'', w)]).inline =
    (name ++ [' ', '\x7b', ' '] ++ label ++ [':', ' ']) ++ (u.inline ++
      (([',', ' '] ++ label' ++ [':', ' ']) ++ (v.inline ++
        (([',', ' '] ++ label'' ++ [':', ' ']) ++ (w.inline ++ [' ', '\x7d']))))) := by
  simp [Outline.inline, inlineFields]

variable (depth : Nat)

theorem indented_record_two : (record name [(label, u), (label', v)]).indented depth =
    (name ++ [' ', '\x7b'] ++ newLine (depth + 1) ++ label ++ [':', ' ']) ++ (u.indented (depth + 1) ++
      (([','] ++ newLine (depth + 1) ++ label' ++ [':', ' ']) ++ (v.indented (depth + 1) ++
        ([','] ++ newLine depth ++ ['\x7d'])))) := by
  simp [indented, indentedFields]

theorem indented_record_three : (record name [(label, u), (label', v), (label'', w)]).indented depth =
    (name ++ [' ', '\x7b'] ++ newLine (depth + 1) ++ label ++ [':', ' ']) ++ (u.indented (depth + 1) ++
      (([','] ++ newLine (depth + 1) ++ label' ++ [':', ' ']) ++ (v.indented (depth + 1) ++
        (([','] ++ newLine (depth + 1) ++ label'' ++ [':', ' ']) ++ (w.indented (depth + 1) ++
          ([','] ++ newLine depth ++ ['\x7d'])))))) := by
  simp [indented, indentedFields]

end Outline

/-- A way to write hashes that tells them apart and is of one width. -/
structure Hash.OfOneWidth (write : Hash → Text) : Prop where
  injective : Function.Injective write
  width (g h : Hash) : (write g).length = (write h).length

theorem Hash.ofOneWidth_shown : OfOneWidth shown where
  injective g h heq := by
    rw [shown_eq_displayHex, shown_eq_displayHex] at heq
    exact displayHex_injective heq
  width g h := by rw [shown_eq_displayHex, shown_eq_displayHex, length_displayHex, length_displayHex]

/-- The same words around each hash leave it of one width. -/
theorem Hash.OfOneWidth.between {write : Hash → Text} (hwrite : OfOneWidth write) (p s : Text) :
    OfOneWidth fun h => p ++ write h ++ s where
  injective _ _ heq := hwrite.injective (List.append_cancel_left (List.append_cancel_right heq))
  width g h := by simp only [List.length_append, hwrite.width g h]

theorem Hash.ofOneWidth_inspected : OfOneWidth inspected := ofOneWidth_shown.between "Hash256(".toList [')']

/-- A hash of one width is cut off from what stands around it. -/
theorem Hash.OfOneWidth.cut {write : Hash → Text} (hwrite : OfOneWidth write) {p s t : Text} {g h : Hash}
    (heq : p ++ (write g ++ s) = p ++ (write h ++ t)) : g = h ∧ s = t := by
  obtain ⟨hhash, hrest⟩ := List.append_inj (List.append_cancel_left heq) (hwrite.width g h)
  exact ⟨hwrite.injective hhash, hrest⟩

namespace BlockBinding

open Outline

/-- Two bindings whose hashes stand between the same texts, before signatures that are told apart. -/
theorem eq_of_laid_out {write : Hash → Text} (hwrite : Hash.OfOneWidth write) {f : Bytes → Text} {p q x t : Text}
    (hf : ∀ {c d}, f c ++ t = f d ++ t → c = d) {a b : BlockBinding}
    (h : p ++ (write a.modifiedMerkleRoot ++ (q ++ (write a.previousBlock ++ (x ++ (f a.signature ++ t))))) =
      p ++ (write b.modifiedMerkleRoot ++ (q ++ (write b.previousBlock ++ (x ++ (f b.signature ++ t)))))) : a = b := by
  obtain ⟨hroot, hrest⟩ := hwrite.cut h
  obtain ⟨hprevious, hrest⟩ := hwrite.cut hrest
  have hsignature := hf (List.append_cancel_left hrest)
  exact eq_iff_bytes.2 ⟨congrArg Hash.bytes hroot, congrArg Hash.bytes hprevious, hsignature⟩

theorem shown_injective : Function.Injective shown := by
  intro a b h
  have htext (p u q v x w : Text) : p ++ u ++ q ++ v ++ x ++ w = p ++ (u ++ (q ++ (v ++ (x ++ (w ++ []))))) := by
    simp only [List.append_assoc, List.append_nil]
  exact eq_of_laid_out Hash.ofOneWidth_shown (fun heq => Hex.encode_injective (List.append_cancel_right heq))
    ((htext ..).symm.trans (h.trans (htext ..)))

theorem inline_injective : Function.Injective fun b : BlockBinding => b.outline.inline := by
  intro a b h
  have htext (b : BlockBinding) := inline_record_three "BlockBind".toList "modified_merkle_root".toList
    "prev_block_hash".toList "sig".toList b.modifiedMerkleRoot.outline b.previousBlock.outline
    (list (decimals b.signature))
  exact eq_of_laid_out Hash.ofOneWidth_inspected (eq_of_numbers fun bytes => numbers_inline_list bytes _)
    ((htext a).symm.trans (h.trans (htext b)))

theorem indented_injective (depth : Nat) : Function.Injective fun b : BlockBinding => b.outline.indented depth := by
  intro a b h
  have htext (b : BlockBinding) := indented_record_three "BlockBind".toList "modified_merkle_root".toList
    "prev_block_hash".toList "sig".toList b.modifiedMerkleRoot.outline b.previousBlock.outline
    (list (decimals b.signature)) depth
  exact eq_of_laid_out Hash.ofOneWidth_inspected (eq_of_numbers fun bytes => numbers_indented_list _ bytes _)
    ((htext a).symm.trans (h.trans (htext b)))

end BlockBinding

namespace Reference

open Outline

theorem eq_iff_txid_binding {r q : Reference} : r = q ↔ r.txid.bytes = q.txid.bytes ∧ r.binding = q.binding := by
  cases r
  cases q
  rw [Reference.mk.injEq, Hash.ext_iff]

theorem eq_of_laid_out {write : Hash → Text} (hwrite : Hash.OfOneWidth write) {f : BlockBinding → Text}
    (hf : Function.Injective f) {p q t : Text} {a b : Reference}
    (h : p ++ (write a.txid ++ (q ++ (f a.binding ++ t))) = p ++ (write b.txid ++ (q ++ (f b.binding ++ t)))) :
    a = b := by
  obtain ⟨htxid, hrest⟩ := hwrite.cut h
  have hbinding := hf (List.append_cancel_right (List.append_cancel_left hrest))
  exact eq_iff_txid_binding.2 ⟨congrArg Hash.bytes htxid, hbinding⟩

theorem shown_injective : Function.Injective shown := by
  intro a b h
  have htext (p u q v : Text) : p ++ u ++ q ++ v = p ++ (u ++ (q ++ (v ++ []))) := by
    simp only [List.append_assoc, List.append_nil]
  exact eq_of_laid_out Hash.ofOneWidth_shown BlockBinding.shown_injective ((htext ..).symm.trans (h.trans (htext ..)))

theorem inspected_injective : Function.Injective inspected := by
  intro a b h
  have htext (r : Reference) := inline_record_two "MinerInfoRef".toList "txid".toList "block_bind".toList
    r.txid.outline r.binding.outline
  exact eq_of_laid_out Hash.ofOneWidth_inspected BlockBinding.inline_injective
    ((htext a).symm.trans (h.trans (htext b)))

theorem inspectedIndented_injective : Function.Injective inspectedIndented := by
  intro a b h
  have htext (r : Reference) := indented_record_two "MinerInfoRef".toList "txid".toList "block_bind".toList
    r.txid.outline r.binding.outline 0
  exact eq_of_laid_out Hash.ofOneWidth_inspected (BlockBinding.indented_injective 1)
    ((htext a).symm.trans (h.trans (htext b)))

end Reference

/-- Two bindings, and two references, with signatures of any lengths, are the same exactly if they are shown by one
text, if they are inspected by one text on one line, and if they are so on many lines; and they are the same exactly if
all their fields are. -/
theorem renderings_identify_values :
    (∀ a b : BlockBinding,
      (a = b ↔ a.shown = b.shown) ∧ (a = b ↔ a.inspected = b.inspected) ∧
      (a = b ↔ a.inspectedIndented = b.inspectedIndented) ∧
      (a = b ↔ a.modifiedMerkleRoot.bytes = b.modifiedMerkleRoot.bytes ∧
        a.previousBlock.bytes = b.previousBlock.bytes ∧ a.signature = b.signature)) ∧
    ∀ r q : Reference,
      (r = q ↔ r.shown = q.shown) ∧ (r = q ↔ r.inspected = q.inspected) ∧
      (r = q ↔ r.inspectedIndented = q.inspectedIndented) ∧
      (r = q ↔ r.txid.bytes = q.txid.bytes ∧
        r.binding.modifiedMerkleRoot.bytes = q.binding.modifiedMerkleRoot.bytes ∧
        r.binding.previousBlock.bytes = q.binding.previousBlock.bytes ∧ r.binding.signature = q.binding.signature) := by
  constructor
  · intro a b
    exact ⟨BlockBinding.shown_injective.eq_iff.symm, BlockBinding.inline_injective.eq_iff.symm,
      (BlockBinding.indented_injective 0).eq_iff.symm, BlockBinding.eq_iff_bytes⟩
  · intro r q
    refine ⟨Reference.shown_injective.eq_iff.symm, Reference.inspected_injective.eq_iff.symm,
      Reference.inspectedIndented_injective.eq_iff.symm, ?_⟩
    rw [Reference.eq_iff_txid_binding, BlockBinding.eq_iff_bytes]

end MinerInfo
