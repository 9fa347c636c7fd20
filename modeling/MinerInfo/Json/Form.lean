import MinerInfo.Json.Record
import MinerInfo.Reference

/-! The JSON forms of hashes, bindings and references. A hash is written in its display form, a signature byte
by byte in the order of a script. -/

namespace MinerInfo

open Json

namespace Json

/-- A string of characters that need no escape. -/
def string (t : Text) : Text := '"' :: t ++ ['"']

/-- The members of an object, with commas between them. -/
def members : List (Text × Text) → Text
  | [] => []
  | [(name, value)] => string name ++ ':' :: value
  | (name, value) :: rest => string name ++ ':' :: value ++ ',' :: members rest

/-- An object, of names that need no escape. -/
def object (ms : List (Text × Text)) : Text := '\x7b' :: members ms ++ ['\x7d']

end Json

def Hash.toJson (h : Hash) : Text := string h.shown

inductive BlockBinding.Field where
  | modifiedMerkleRoot
  | previousBlock
  | signature
  deriving DecidableEq

def BlockBinding.Field.label : BlockBinding.Field → Text
  | .modifiedMerkleRoot => "modified_merkle_root".toList
  | .previousBlock => "prev_block_hash".toList
  | .signature => "sig".toList

def BlockBinding.toJson (b : BlockBinding) : Text :=
  object
    [(Field.label .modifiedMerkleRoot, b.modifiedMerkleRoot.toJson),
      (Field.label .previousBlock, b.previousBlock.toJson),
      (Field.label .signature, string (Hex.encode b.signature))]

inductive Reference.Field where
  | txid
  | binding
  deriving DecidableEq

def Reference.Field.label : Reference.Field → Text
  | .txid => "txid".toList
  | .binding => "block_bind".toList

def Reference.toJson (r : Reference) : Text :=
  object [(Field.label .txid, r.txid.toJson), (Field.label .binding, r.binding.toJson)]

def Hash.ofDocument : Document → Except Fault Hash := Document.hex "a string".toList Hash.ofDisplayHex

def BlockBinding.Field.Value : BlockBinding.Field → Type
  | .signature => Bytes
  | _ => Hash

def BlockBinding.record : Record BlockBinding where
  Field := BlockBinding.Field
  Value := BlockBinding.Field.Value
  decEq := inferInstance
  title := "BlockBind".toList
  fields := [.modifiedMerkleRoot, .previousBlock, .signature]
  mem_fields f := by cases f <;> simp
  label := BlockBinding.Field.label
  read
    | .modifiedMerkleRoot => Hash.ofDocument
    | .previousBlock => Hash.ofDocument
    | .signature => Document.hex "a hex encoded string".toList Hex.decode
  build v := ⟨v .modifiedMerkleRoot, v .previousBlock, v .signature⟩

def BlockBinding.ofDocument : Document → Except Fault BlockBinding := BlockBinding.record.ofDocument

def Reference.Field.Value : Reference.Field → Type
  | .txid => Hash
  | .binding => BlockBinding

def Reference.record : Record Reference where
  Field := Reference.Field
  Value := Reference.Field.Value
  decEq := inferInstance
  title := "MinerInfoRef".toList
  fields := [.txid, .binding]
  mem_fields f := by cases f <;> simp
  label := Reference.Field.label
  read
    | .txid => Hash.ofDocument
    | .binding => BlockBinding.ofDocument
  build v := ⟨v .txid, v .binding⟩

def Reference.ofDocument : Document → Except Fault Reference := Reference.record.ofDocument

def Hash.ofJson : Text → Except Fault Hash := Json.read Hash.ofDocument

def BlockBinding.ofJson : Text → Except Fault BlockBinding := Json.read BlockBinding.ofDocument

def Reference.ofJson : Text → Except Fault Reference := Json.read Reference.ofDocument

end MinerInfo
