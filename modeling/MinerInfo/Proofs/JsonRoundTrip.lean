import MinerInfo.Proofs.HexForm
import MinerInfo.Proofs.JsonRecord
import MinerInfo.Proofs.JsonText

/-! What is written in JSON reads back. A hash, a binding and a reference each have a tree, which their JSON spells
and from which their reader takes them again. For a binding and for a reference it is put together from `value`, the
values of the fields, `text`, their written forms, `tree`, their trees, and `property`, the members made of these. -/

namespace MinerInfo

open Json

theorem Hex.digit_plain : ∀ n < 16, digit n ≠ '"' ∧ digit n ≠ '\\' ∧ 0x20 ≤ (digit n).toNat := by
  decide

theorem Hex.plain_encode (bytes : Bytes) : Plain (encode bytes) := by
  intro c hc
  obtain ⟨byte, -, hbyte⟩ := List.mem_flatMap.1 hc
  rw [digits, List.mem_cons, List.mem_singleton] at hbyte
  have hlt := byte.toNat_lt
  rcases hbyte with rfl | rfl
  · exact digit_plain _ (by omega)
  · exact digit_plain _ (by omega)

namespace Json

theorem Document.hex_plain {α : Type} {expected : Text} {decode : Text → Except Hex.Fault α} {t : Text} {a : α}
    (h : decode t = .ok a) : Document.hex expected decode (.string (.plain t)) = .ok a := by
  rw [Document.hex, Document.text, Literal.text_plain]
  simp only [bind, Except.bind, h]
  rfl

/-- The members of a record, each written as its text and standing for its value, spell the tree of the record, and
the record is read from that tree. -/
theorem Record.spells_and_ofDocument {α : Type} (R : Record α) (property : R.Field → Property)
    (v : (f : R.Field) → R.Value f) (hinj : Function.Injective R.label) (hnodup : R.fields.Nodup)
    (hname : ∀ f, (property f).name = R.label f) (hsound : ∀ f, (property f).Sound)
    (hread : ∀ f, R.read f (property f).value = .ok (v f)) :
    Spells (object ((R.fields.map property).map Property.pair))
      (.object ((R.fields.map property).map Property.member) (.ok ())) ∧
      R.ofDocument (.object ((R.fields.map property).map Property.member) (.ok ())) = .ok (R.build v) := by
  constructor
  · apply spells_object
    intro e he
    obtain ⟨f, -, rfl⟩ := List.mem_map.1 he
    exact hsound f
  · rw [List.map_map]
    refine R.ofDocument_object hinj hnodup (fun f => ?_) hread
    rw [Function.comp_apply, Property.member, Literal.text_plain, hname]

end Json

def Hash.document (h : Hash) : Document := .string (.plain h.shown)

theorem Hash.spells_toJson (h : Hash) : Spells h.toJson h.document := by
  apply spells_string
  rw [shown_eq_displayHex]
  exact Hex.plain_encode _

theorem Hash.ofDocument_document (h : Hash) : ofDocument h.document = .ok h := by
  rw [ofDocument, document, shown_eq_displayHex]
  exact Document.hex_plain h.ofDisplayHex_displayHex

namespace BlockBinding

def value (b : BlockBinding) : (f : Field) → f.Value
  | .modifiedMerkleRoot => b.modifiedMerkleRoot
  | .previousBlock => b.previousBlock
  | .signature => b.signature

def text (b : BlockBinding) : Field → Text
  | .modifiedMerkleRoot => b.modifiedMerkleRoot.toJson
  | .previousBlock => b.previousBlock.toJson
  | .signature => string (Hex.encode b.signature)

def tree (b : BlockBinding) : Field → Document
  | .modifiedMerkleRoot => b.modifiedMerkleRoot.document
  | .previousBlock => b.previousBlock.document
  | .signature => .string (.plain (Hex.encode b.signature))

def property (b : BlockBinding) (f : Field) : Property := ⟨f.label, b.text f, b.tree f⟩

def document (b : BlockBinding) : Document := .object ((record.fields.map b.property).map Property.member) (.ok ())

theorem label_injective : Function.Injective Field.label := by
  intro f g
  cases f <;> cases g <;> decide

theorem plain_label (f : Field) : Plain f.label := by
  apply plain_of_all
  cases f <;> rfl

theorem spells_text (b : BlockBinding) (f : Field) : Spells (b.text f) (b.tree f) := by
  cases f with
  | modifiedMerkleRoot => exact b.modifiedMerkleRoot.spells_toJson
  | previousBlock => exact b.previousBlock.spells_toJson
  | signature => exact spells_string (Hex.plain_encode b.signature)

theorem read_tree (b : BlockBinding) (f : Field) : record.read f (b.tree f) = .ok (b.value f) := by
  cases f with
  | modifiedMerkleRoot => exact b.modifiedMerkleRoot.ofDocument_document
  | previousBlock => exact b.previousBlock.ofDocument_document
  | signature => exact Document.hex_plain (Hex.decode_encode b.signature)

theorem spells_and_ofDocument (b : BlockBinding) : Spells b.toJson b.document ∧ ofDocument b.document = .ok b :=
  record.spells_and_ofDocument b.property b.value label_injective (by decide) (fun _ => rfl)
    (fun f => ⟨plain_label f, b.spells_text f⟩) b.read_tree

end BlockBinding

namespace Reference

def value (r : Reference) : (f : Field) → f.Value
  | .txid => r.txid
  | .binding => r.binding

def text (r : Reference) : Field → Text
  | .txid => r.txid.toJson
  | .binding => r.binding.toJson

def tree (r : Reference) : Field → Document
  | .txid => r.txid.document
  | .binding => r.binding.document

def property (r : Reference) (f : Field) : Property := ⟨f.label, r.text f, r.tree f⟩

def document (r : Reference) : Document := .object ((record.fields.map r.property).map Property.member) (.ok ())

theorem label_injective : Function.Injective Field.label := by
  intro f g
  cases f <;> cases g <;> decide

theorem plain_label (f : Field) : Plain f.label := by
  apply plain_of_all
  cases f <;> rfl

theorem spells_text (r : Reference) (f : Field) : Spells (r.text f) (r.tree f) := by
  cases f with
  | txid => exact r.txid.spells_toJson
  | binding => exact r.binding.spells_and_ofDocument.1

theorem read_tree (r : Reference) (f : Field) : record.read f (r.tree f) = .ok (r.value f) := by
  cases f with
  | txid => exact r.txid.ofDocument_document
  | binding => exact r.binding.spells_and_ofDocument.2

theorem spells_and_ofDocument (r : Reference) : Spells r.toJson r.document ∧ ofDocument r.document = .ok r :=
  record.spells_and_ofDocument r.property r.value label_injective (by decide) (fun _ => rfl)
    (fun f => ⟨plain_label f, r.spells_text f⟩) r.read_tree

end Reference

theorem Hash.toJson_eq (h : Hash) : h.toJson = '"' :: Hex.encode h.bytes.reverse ++ ['"'] := by
  rw [toJson, shown_eq_displayHex]
  rfl

theorem BlockBinding.toJson_eq (b : BlockBinding) :
    b.toJson = "\x7b\"modified_merkle_root\":\"".toList ++ Hex.encode b.modifiedMerkleRoot.bytes.reverse ++
      "\",\"prev_block_hash\":\"".toList ++ Hex.encode b.previousBlock.bytes.reverse ++
      "\",\"sig\":\"".toList ++ Hex.encode b.signature ++ "\"\x7d".toList := by
  rw [toJson, Hash.toJson_eq, Hash.toJson_eq]
  simp only [object, members, string, List.append_assoc, List.cons_append, List.nil_append]
  rfl

theorem Reference.toJson_eq (r : Reference) :
    r.toJson = "\x7b\"txid\":\"".toList ++ Hex.encode r.txid.bytes.reverse ++
      "\",\"block_bind\":".toList ++ r.binding.toJson ++ "\x7d".toList := by
  rw [toJson, Hash.toJson_eq]
  simp only [object, members, string, List.append_assoc, List.cons_append, List.nil_append]
  rfl

/-- A hash, a binding with a signature of any length, and a reference are each read back from their JSON. A hash is
written last byte first and a signature in the order of its bytes. -/
theorem ofJson_toJson :
    (∀ h : Hash, h.toJson = '"' :: Hex.encode h.bytes.reverse ++ ['"'] ∧ Hash.ofJson h.toJson = .ok h) ∧
    (∀ b : BlockBinding,
      b.toJson = "\x7b\"modified_merkle_root\":\"".toList ++ Hex.encode b.modifiedMerkleRoot.bytes.reverse ++
        "\",\"prev_block_hash\":\"".toList ++ Hex.encode b.previousBlock.bytes.reverse ++
        "\",\"sig\":\"".toList ++ Hex.encode b.signature ++ "\"\x7d".toList ∧
      BlockBinding.ofJson b.toJson = .ok b) ∧
    ∀ r : Reference,
      r.toJson = "\x7b\"txid\":\"".toList ++ Hex.encode r.txid.bytes.reverse ++
        "\",\"block_bind\":".toList ++ r.binding.toJson ++ "\x7d".toList ∧
      Reference.ofJson r.toJson = .ok r := by
  refine ⟨?_, ?_, ?_⟩
  · intro h
    exact ⟨h.toJson_eq, read_of_spells h.spells_toJson rfl h.ofDocument_document⟩
  · intro b
    obtain ⟨hspells, hread⟩ := b.spells_and_ofDocument
    exact ⟨b.toJson_eq, read_of_spells hspells rfl hread⟩
  · intro r
    obtain ⟨hspells, hread⟩ := r.spells_and_ofDocument
    exact ⟨r.toJson_eq, read_of_spells hspells rfl hread⟩

end MinerInfo
