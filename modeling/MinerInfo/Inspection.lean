import MinerInfo.Reference

/-! The texts shown for bindings and references: one for people, and one for inspection, on one line or on
many. What is inspected is laid out first as words, lists and records. -/

namespace MinerInfo

inductive Outline where
  | word (t : Text)
  | list (items : List Outline)
  | record (name : Text) (fields : List (Text × Outline))

namespace Outline

mutual

def inline : Outline → Text
  | .word t => t
  | .list items => '[' :: inlineItems items ++ [']']
  | .record name fields => name ++ [' ', '\x7b', ' '] ++ inlineFields fields ++ [' ', '\x7d']

/-- The items of a list, with a comma and a blank between neighbours. -/
def inlineItems : List Outline → Text
  | [] => []
  | [item] => inline item
  | item :: rest => inline item ++ [',', ' '] ++ inlineItems rest

/-- The fields of a record, with a comma and a blank between neighbours. -/
def inlineFields : List (Text × Outline) → Text
  | [] => []
  | [(label, value)] => label ++ [':', ' '] ++ inline value
  | (label, value) :: rest => label ++ [':', ' '] ++ inline value ++ [',', ' '] ++ inlineFields rest

end

/-- The beginning of a line that is `depth` steps in. -/
def newLine (depth : Nat) : Text := '\n' :: List.replicate (4 * depth) ' '

mutual

/-- A value that stands `depth` steps in, its own items one step further. -/
def indented (depth : Nat) : Outline → Text
  | .word t => t
  | .list [] => ['[', ']']
  | .list items => '[' :: indentedItems (depth + 1) items ++ newLine depth ++ [']']
  | .record name fields =>
    name ++ [' ', '\x7b'] ++ indentedFields (depth + 1) fields ++ newLine depth ++ ['\x7d']

/-- The items of a list, each on its line and closed by a comma. -/
def indentedItems (depth : Nat) : List Outline → Text
  | [] => []
  | item :: rest => newLine depth ++ indented depth item ++ [','] ++ indentedItems depth rest

/-- The fields of a record, each on its line and closed by a comma. -/
def indentedFields (depth : Nat) : List (Text × Outline) → Text
  | [] => []
  | (label, value) :: rest =>
    newLine depth ++ label ++ [':', ' '] ++ indented depth value ++ [','] ++ indentedFields depth rest

end

end Outline

/-- The outline of a hash, a single word in every layout. -/
def Hash.outline (h : Hash) : Outline := .word h.inspected

namespace BlockBinding

def shown (b : BlockBinding) : Text :=
  "modified_merkle_root: ".toList ++ b.modifiedMerkleRoot.shown ++ ", prev_block_hash: ".toList
    ++ b.previousBlock.shown ++ ", sig: ".toList ++ Hex.encode b.signature

/-- The outline of a binding, with the signature as a list of decimal numbers. -/
def outline (b : BlockBinding) : Outline :=
  .record "BlockBind".toList
    [("modified_merkle_root".toList, b.modifiedMerkleRoot.outline),
      ("prev_block_hash".toList, b.previousBlock.outline),
      ("sig".toList, .list (b.signature.map fun byte => .word (Nat.toDigits 10 byte.toNat)))]

def inspected (b : BlockBinding) : Text := b.outline.inline

def inspectedIndented (b : BlockBinding) : Text := b.outline.indented 0

end BlockBinding

namespace Reference

def shown (r : Reference) : Text := "txid: ".toList ++ r.txid.shown ++ ", ".toList ++ r.binding.shown

def outline (r : Reference) : Outline :=
  .record "MinerInfoRef".toList [("txid".toList, r.txid.outline), ("block_bind".toList, r.binding.outline)]

def inspected (r : Reference) : Text := r.outline.inline

def inspectedIndented (r : Reference) : Text := r.outline.indented 0

end Reference

end MinerInfo
