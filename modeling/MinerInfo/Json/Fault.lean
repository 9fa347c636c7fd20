import MinerInfo.Decimal
import MinerInfo.Hex

/-! What can be wrong with a JSON text from which a value is to be read. -/

namespace MinerInfo.Json

/-- What stands in a text where another kind of value was wanted. -/
inductive Found where
  | null
  | boolean (b : Bool)
  | integer (n : Int)
  | real (d : Decimal)
  | string (t : Text)
  | array
  | object
  deriving DecidableEq

def Found.text : Found → Text
  | .null => "null".toList
  | .boolean b => "boolean `".toList ++ (if b then "true`" else "false`").toList
  | .integer n =>
    "integer `".toList ++ (if n < 0 then ['-'] else []) ++ Nat.toDigits 10 n.natAbs ++ "`".toList
  | .real d => "floating point `".toList ++ d.text ++ "`".toList
  | .string t => "string ".toList ++ Text.quoted t
  | .array => "sequence".toList
  | .object => "map".toList

/-- Why JSON that is well formed as far as it was read does not give the value. -/
inductive Misfit where
  | wrongType (found : Found) (expected : Text)
  | badHex (fault : Hex.Fault)
  | duplicate (field : Text)
  | missing (field : Text)
  /-- An array of `count` elements stands for a record of `arity` fields. -/
  | tooFew (count : Nat) (title : Text) (arity : Nat)
  deriving DecidableEq

def Misfit.message : Misfit → Text
  | .wrongType found expected => "invalid type: ".toList ++ found.text ++ ", expected ".toList ++ expected
  | .badHex fault => fault.message
  | .duplicate field => "duplicate field `".toList ++ field ++ "`".toList
  | .missing field => "missing field `".toList ++ field ++ "`".toList
  | .tooFew count title arity =>
    "invalid length ".toList ++ Nat.toDigits 10 count ++ ", expected struct ".toList ++ title
      ++ " with ".toList ++ Nat.toDigits 10 arity ++ " elements".toList

/-- The first thing that is wrong with a text, read from left to right. -/
inductive Fault where
  /-- The text is no JSON. -/
  | malformed
  /-- The text ends too early. -/
  | truncated
  | misfit (m : Misfit)
  deriving DecidableEq

end MinerInfo.Json
