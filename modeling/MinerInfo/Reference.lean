import MinerInfo.BlockBinding
import MinerInfo.Script.Cursor

/-! Miner info references and their scripts: the marker, the version, the pushes of the transaction
identifier and of the two hashes of the block binding, and the push of its signature. A script is read under a
log, to which goes how the reading has ended and how many bytes it has left over. -/

namespace MinerInfo

/-- The identifier of the transaction that holds the miner info document, and its binding to the block. -/
structure Reference where
  txid : Hash
  binding : BlockBinding
  deriving DecidableEq

namespace Reference

open Script

/-- Puts the binding of a reference to a verifier. -/
def verifyBinding {m : Type → Type} (r : Reference) (verifier : BlockBinding → m Bool) : m Bool :=
  r.binding.verifyWith verifier

/-- The script of a reference. There is none if one byte cannot tell the length of the signature, or tells one
that no signature has. -/
def toScript (r : Reference) : Except Rejection Bytes :=
  let signature := r.binding.signature
  if (lengthByte? signature.length).any fun n => minSignatureLength ≤ n ∧ n ≤ maxSignatureLength then
    let header := marker ++ [Version.v0.toByte]
    let hashes := [r.txid, r.binding.modifiedMerkleRoot, r.binding.previousBlock]
    .ok (push (hashes.foldl (fun script h => push script h.bytes) header) signature)
  else .error .signatureLength

/-- The levels of a log, the quietest first. -/
inductive Level where
  | off
  | error
  | warn
  | info
  | debug
  | trace
  deriving DecidableEq

def Level.verbosity : Level → Nat
  | .off => 0
  | .error => 1
  | .warn => 2
  | .info => 3
  | .debug => 4
  | .trace => 5

/-- A value as it stands in a log. -/
inductive Datum where
  | number (n : Nat)
  | text (t : Text)
  deriving DecidableEq

/-- An entry of a log: its level, its message and its named values. -/
structure Entry where
  level : Level
  message : Text
  fields : List (Text × Datum)
  deriving DecidableEq

/-- Bytes stand behind the signature; there are `count`. -/
def Entry.trailing (count : Nat) : Entry :=
  ⟨.trace, "ignoring bytes after block bind signature".toList, [("trailing".toList, .number count)]⟩

def Entry.parsed (txid : Hash) : Entry :=
  ⟨.trace, "parsed miner info reference".toList, [("txid".toList, .text txid.shown)]⟩

def Entry.rejected (reason : Rejection) (scriptLength : Nat) : Entry :=
  ⟨.debug, "rejected miner info reference script".toList,
    [("err".toList, .text reason.message), ("script_len".toList, .number scriptLength)]⟩

/-- A computation under a log of some level, to which it can add entries. -/
abbrev Logging := ReaderT Level (StateM (List Entry))

/-- Adds an entry to the log, unless the level of the log is too low for it. -/
def emit (e : Entry) : Logging Unit := do
  if e.level.verbosity ≤ (← read).verbosity then modify fun log => log ++ [e]

/-- A reading of a script under a log. What was logged stays logged if the script is then rejected. -/
abbrev Reading := ExceptT Rejection (StateT Cursor Logging)

instance : MonadLift Read Reading where
  monadLift m := ExceptT.mk fun c => pure <|
    match m c with
    | .ok a d => (.ok a, d)
    | .error e d => (.error e, d)

/-- Reads a reference. Each field is checked as it is met, so the first broken constraint is the one
reported; bytes after the signature stay unread. -/
def decode : Reading Reference := do
  unless ← Read.marker marker do throw .noMarker
  let version ← Read.byte
  if (Version.ofByte? version).isNone then throw .unknownVersion
  let txid ← Read.hash .txidLength
  let modifiedMerkleRoot ← Read.hash .merkleRootLength
  let previousBlock ← Read.hash .previousBlockLength
  let signature ← Read.push minSignatureLength maxSignatureLength .signatureLength
  if 0 < (← Read.remaining) then emit (.trailing (← Read.remaining))
  return ⟨txid, modifiedMerkleRoot, previousBlock, signature⟩

/-- Reads the reference that a script begins with, and logs how that has ended. -/
def parse (script : Bytes) : Logging (Except Rejection Reference) := do
  let result ← decode.run.run' (.atStart script)
  match result with
  | .ok r => emit (.parsed r.txid)
  | .error e => emit (.rejected e script.length)
  return result

/-- What the reading of a script comes to under a log of the given level, and what is logged of it. -/
def reading (level : Level) (script : Bytes) : Except Rejection Reference × List Entry :=
  ((parse script).run level).run []

/-- The reference that a script begins with. -/
def ofScript (script : Bytes) : Except Rejection Reference := (reading .off script).1

/-- What is logged at the given level while a script is read. -/
def log (level : Level) (script : Bytes) : List Entry := (reading level script).2

def distinct (rs : List Reference) : Nat := rs.eraseDups.length

end Reference

end MinerInfo
